import HeapGuard.Proofs.Ledger.Invariant
import Mathlib.Data.Finmap
import Mathlib.Algebra.BigOperators.Group.Multiset.Basic

/-! # The ledger as a bag

Seen from outside, a ledger is a bag of at most `N` entries: what it answers depends on
the entries that were put in and not taken out, and neither on the slots they lie in nor
on the slots vacated before. If no address is entered while it is live, the bag is a
finite map from addresses to sizes and kinds.
-/

namespace HeapGuard.Ledger

variable {N : Nat} {t : Ledger N} {M : Multiset Entry}

/-- Commands with their answers, the last one first. -/
abbrev Past := List (Command × Answer)

def play (N : Nat) : List Command → Except Trap (Past × Ledger N)
  | [] => .ok ([], empty N)
  | c :: cs => do
    let (past, t) ← play N cs
    let (answer, t) ← t.perform c
    return ((c, answer) :: past, t)

/-- The entries that were put in and not taken out. -/
def Past.bag : Past → Multiset Entry
  | [] => 0
  | (.insert e, .inserted true) :: past => e ::ₘ bag past
  | (.remove _, .found (some e)) :: past => (bag past).erase e
  | _ :: past => bag past

/-- Sizes and kinds under the addresses that were put in and not taken out. -/
def Past.map : Past → Finmap fun _ : Nat => Nat × Kind
  | [] => ∅
  | (.insert e, .inserted true) :: past => (map past).insert e.addr (e.size, e.kind)
  | (.remove a, .found (some _)) :: past => (map past).erase a
  | _ :: past => map past

def bytes (M : Multiset Entry) : Nat := (M.map Entry.size).sum

/-- `P` holds of the bag before each command and that command. -/
def Along (N : Nat) (P : Multiset Entry → Command → Prop) : List Command → Prop
  | [] => True
  | c :: cs => Along N P cs ∧ ∀ past t, play N cs = .ok (past, t) → P past.bag c

/-- An entry for which there is room does not take the sizes in the bag to `2 ^ 64`. -/
def Fits (N : Nat) (M : Multiset Entry) : Command → Prop
  | .insert e => M.card < N → bytes M + e.size < 2 ^ 64
  | _ => True

def Fresh (M : Multiset Entry) : Command → Prop
  | .insert e => ∀ e' ∈ M, e'.addr ≠ e.addr
  | _ => True

instance (N : Nat) (M : Multiset Entry) (c : Command) : Decidable (Fits N M c) :=
  match c with
  | .insert e => inferInstanceAs (Decidable (M.card < N → bytes M + e.size < 2 ^ 64))
  | .remove _ | .lookup _ | .entries => inferInstanceAs (Decidable True)

instance (M : Multiset Entry) (c : Command) : Decidable (Fresh M c) :=
  match c with
  | .insert e => inferInstanceAs (Decidable (∀ e' ∈ M, e'.addr ≠ e.addr))
  | .remove _ | .lookup _ | .entries => inferInstanceAs (Decidable True)

/-- The ledger answers as the bag `M` of at most `N` entries. -/
structure AnswersAs (t : Ledger N) (M : Multiset Entry) : Prop where
  entries_eq : (t.entries : Multiset Entry) = M
  live_eq : t.live = M.card
  liveBytes_eq : t.liveBytes = bytes M
  card_le : M.card ≤ N
  insert_of_room : ∀ e, M.card < N → bytes M + e.size < 2 ^ 64 →
    ∃ t', t.insert e = .ok (true, t') ∧ (t'.entries : Multiset Entry) = e ::ₘ M
  insert_of_full : ∀ e, M.card = N → t.insert e = .ok (false, t)
  absent : ∀ a, (∀ e ∈ M, e.addr ≠ a) → t.lookup a = .ok none ∧ t.remove a = .ok (none, t)
  present : ∀ a, (∃ e ∈ M, e.addr = a) → ∃ e ∈ M, e.addr = a ∧ t.lookup a = .ok (some e) ∧
    ∃ t', t.remove a = .ok (some e, t') ∧ (t'.entries : Multiset Entry) = M.erase e

theorem bytes_coe (l : List Entry) : bytes (l : Multiset Entry) = (l.map Entry.size).sum := by
  simp [bytes]

section Steps

variable (hN : 0 < N)
include hN

theorem Sound.insert_of_room (ht : t.Sound) {e : Entry} (hroom : t.entries.length < N)
    (hfit : t.liveBytes + e.size < 2 ^ 64) :
    ∃ t', t.insert e = .ok (true, t') ∧ t'.Sound ∧
      (t'.entries : Multiset Entry) = e ::ₘ (t.entries : Multiset Entry) := by
  obtain ⟨c, hc, hs, hp⟩ := entering_of_room hN ht hroom hfit
  refine ⟨t.apply c, ?_, hs, Quot.sound hp⟩
  simp [insert, hc, bind, Except.bind, pure, Except.pure]

theorem insert_of_full {e : Entry} (hfull : N ≤ t.entries.length) : t.insert e = .ok (false, t) := by
  simp [insert, entering_of_full hN hfull, bind, Except.bind, pure, Except.pure]

theorem remove_of_absent {a : Nat} (ha : ∀ e ∈ t.entries, e.addr ≠ a) :
    t.lookup a = .ok none ∧ t.remove a = .ok (none, t) := by
  have hf := find_of_absent hN ha
  refine ⟨lookup_eq_of_find hf, ?_⟩
  simp [remove, striking_eq_none_of_find hf, bind, Except.bind, pure, Except.pure]

theorem Sound.remove_of_present (ht : t.Sound) {a : Nat} (ha : ∃ e ∈ t.entries, e.addr = a) :
    ∃ e ∈ t.entries, e.addr = a ∧ t.lookup a = .ok (some e) ∧
      ∃ t', t.remove a = .ok (some e, t') ∧ t'.Sound ∧
        (t'.entries : Multiset Entry) = (t.entries : Multiset Entry).erase e := by
  obtain ⟨e, he, ha⟩ := ha
  obtain ⟨j, e', hf, hj, ha'⟩ := find_of_mem hN ht he ha
  obtain ⟨c, hc, hs, hp⟩ := ht.striking_of_find hf hj
  refine ⟨e', mem_entries_iff.mpr ⟨j, hj⟩, ha', lookup_eq_of_find hf, t.apply c, ?_, hs, ?_⟩
  · simp [remove, hc, bind, Except.bind, pure, Except.pure]
  · have he : (t.entries : Multiset Entry) = e' ::ₘ ((t.apply c).entries : Multiset Entry) :=
      Quot.sound hp
    rw [he, Multiset.erase_cons_head]

theorem Sound.answersAs (ht : t.Sound) : t.AnswersAs t.entries where
  entries_eq := rfl
  live_eq := ht.live_eq
  liveBytes_eq := by rw [ht.liveBytes_eq, bytes_coe]
  card_le := by
    rw [Multiset.coe_card, entries]
    exact (List.length_filterMap_le _ _).trans_eq Vector.length_toList
  insert_of_room e hroom hfit := by
    rw [bytes_coe, ← ht.liveBytes_eq] at hfit
    obtain ⟨t', hi, -, he⟩ := ht.insert_of_room hN hroom hfit
    exact ⟨t', hi, he⟩
  insert_of_full e hfull := Ledger.insert_of_full hN hfull.ge
  absent a ha := remove_of_absent hN ha
  present a ha := by
    obtain ⟨e, he, ha, hl, t', hr, -, hp⟩ := ht.remove_of_present hN ha
    exact ⟨e, he, ha, hl, t', hr, hp⟩

end Steps

def pair (e : Entry) : Sigma fun _ : Nat => Nat × Kind := ⟨e.addr, e.size, e.kind⟩

section Maps

variable {F : Finmap fun _ : Nat => Nat × Kind} {e : Entry} {a : Nat}

theorem mem_iff_of_map_pair (h : M.map pair = F.entries) : a ∈ F ↔ ∃ e ∈ M, e.addr = a := by
  rw [Finmap.mem_def, ← h, Multiset.keys, Multiset.map_map, Multiset.mem_map]
  rfl

theorem lookup_of_map_pair (h : M.map pair = F.entries) (he : e ∈ M) :
    F.lookup e.addr = some (e.size, e.kind) := by
  rw [← Option.mem_def, Finmap.mem_lookup_iff, ← h]
  exact Multiset.mem_map_of_mem pair he

theorem map_pair_insert (h : M.map pair = F.entries) (he : ∀ e' ∈ M, e'.addr ≠ e.addr) :
    (e ::ₘ M).map pair = (F.insert e.addr (e.size, e.kind)).entries := by
  have hn : e.addr ∉ F := by
    rw [mem_iff_of_map_pair h]
    rintro ⟨e', hm, ha⟩
    exact he e' hm ha
  rw [Multiset.map_cons, h, Finmap.entries_insert_of_notMem hn]
  rfl

theorem map_pair_erase (h : M.map pair = F.entries) (he : e ∈ M) :
    (M.erase e).map pair = (F.erase e.addr).entries := by
  -- a map is what is left of it under the other addresses, with the one entry put back
  have hF : (F.erase e.addr).insert e.addr (e.size, e.kind) = F := by
    apply Finmap.ext_lookup
    intro a
    by_cases ha : a = e.addr
    · rw [ha, Finmap.lookup_insert, lookup_of_map_pair h he]
    · rw [Finmap.lookup_insert_of_ne _ ha, Finmap.lookup_erase_ne ha]
  have hc : F.entries = pair e ::ₘ (F.erase e.addr).entries := by
    conv_lhs => rw [← hF]
    exact Finmap.entries_insert_of_notMem Finmap.notMem_erase_self
  rw [← Multiset.cons_inj_right (pair e), ← Multiset.map_cons, Multiset.cons_erase he, h, hc]

end Maps

/-- What one command keeps: the ledger is sound and holds the bag of its past, and, as long as
addresses are fresh, that bag is the finite map of its past. -/
theorem Sound.perform (hN : 0 < N) (ht : t.Sound) {past : Past}
    (hb : (t.entries : Multiset Entry) = past.bag) (c : Command) (hfit : Fits N past.bag c) :
    ∃ answer t', t.perform c = .ok (answer, t') ∧ t'.Sound ∧
      (t'.entries : Multiset Entry) = Past.bag ((c, answer) :: past) ∧
      (Fresh past.bag c → past.bag.map pair = past.map.entries →
        (Past.bag ((c, answer) :: past)).map pair = (Past.map ((c, answer) :: past)).entries) := by
  cases c with
  | insert e =>
    rcases Nat.lt_or_ge t.entries.length N with hroom | hfull
    · have hbytes : t.liveBytes + e.size < 2 ^ 64 := by
        rw [ht.liveBytes_eq, ← bytes_coe, hb]
        exact hfit (by rwa [← hb])
      obtain ⟨t', hi, ht', he⟩ := ht.insert_of_room hN hroom hbytes
      refine ⟨.inserted true, t', ?_, ht', by rw [he, hb]; rfl, fun hf h => map_pair_insert h hf⟩
      simp [Ledger.perform, hi, bind, Except.bind, pure, Except.pure]
    · refine ⟨.inserted false, t, ?_, ht, hb, fun _ h => h⟩
      simp [Ledger.perform, insert_of_full hN hfull, bind, Except.bind, pure, Except.pure]
  | remove a =>
    by_cases ha : ∃ e ∈ t.entries, e.addr = a
    · obtain ⟨e, he, rfl, -, t', hr, ht', hp⟩ := ht.remove_of_present hN ha
      have hm : e ∈ past.bag := hb ▸ he
      refine ⟨.found (some e), t', ?_, ht', by rw [hp, hb]; rfl, fun _ h => map_pair_erase h hm⟩
      simp [Ledger.perform, hr, bind, Except.bind, pure, Except.pure]
    · obtain ⟨-, hr⟩ := remove_of_absent hN fun e he hea => ha ⟨e, he, hea⟩
      refine ⟨.found none, t, ?_, ht, hb, fun _ h => h⟩
      simp [Ledger.perform, hr, bind, Except.bind, pure, Except.pure]
  | lookup a =>
    have hl : ∃ r, t.lookup a = .ok r := by
      by_cases ha : ∃ e ∈ t.entries, e.addr = a
      · obtain ⟨e, -, -, hl, -⟩ := ht.remove_of_present hN ha
        exact ⟨some e, hl⟩
      · exact ⟨none, (remove_of_absent hN fun e he hea => ha ⟨e, he, hea⟩).1⟩
    obtain ⟨r, hl⟩ := hl
    refine ⟨.found r, t, ?_, ht, hb, fun _ h => h⟩
    simp [Ledger.perform, hl, bind, Except.bind, pure, Except.pure]
  | entries => exact ⟨.entries t.entries, t, rfl, ht, hb, fun _ h => h⟩

theorem exists_play_eq (hN : 0 < N) {cs : List Command} (hfit : Along N (Fits N) cs) :
    ∃ past t, play N cs = .ok (past, t) ∧ t.Sound ∧ (t.entries : Multiset Entry) = past.bag ∧
      (Along N Fresh cs → past.bag.map pair = past.map.entries) := by
  induction cs with
  | nil =>
    refine ⟨[], empty N, rfl, sound_empty N, ?_, fun _ => rfl⟩
    rw [entries_empty]
    rfl
  | cons c cs ih =>
    obtain ⟨past, t, hp, ht, hb, hmap⟩ := ih hfit.1
    obtain ⟨answer, t', hc, ht', hb', hmap'⟩ := ht.perform hN hb c (hfit.2 past t hp)
    refine ⟨(c, answer) :: past, t', ?_, ht', hb', ?_⟩
    · simp [play, hp, hc, bind, Except.bind, pure, Except.pure]
    · intro hf
      exact hmap' (hf.2 past t hp) (hmap hf.1)

/-- However long entries are put in and taken out, the ledger answers as the bag of the entries
put in and not taken out; and as the finite map of its past if only fresh addresses are entered. -/
theorem play_answersAs_bag (hN : 0 < N) (cs : List Command) (hfit : Along N (Fits N) cs) :
    ∃ past t, play N cs = .ok (past, t) ∧ t.AnswersAs past.bag ∧
      (Along N Fresh cs → past.bag.map pair = past.map.entries ∧
        ∀ a, t.lookup a = .ok ((past.map.lookup a).map fun v => ⟨a, v.1, v.2⟩)) := by
  obtain ⟨past, t, hp, ht, hb, hmap⟩ := exists_play_eq hN hfit
  have ha : t.AnswersAs past.bag := hb ▸ ht.answersAs hN
  refine ⟨past, t, hp, ha, ?_⟩
  intro hf
  refine ⟨hmap hf, ?_⟩
  intro a
  by_cases h : ∃ e ∈ past.bag, e.addr = a
  · obtain ⟨e, he, rfl, hl, -⟩ := ha.present a h
    rw [hl, lookup_of_map_pair (hmap hf) he]
    rfl
  · have hn : past.map.lookup a = none :=
      Finmap.lookup_eq_none.mpr fun hm => h ((mem_iff_of_map_pair (hmap hf)).mp hm)
    rw [hn]
    exact (ha.absent a fun e he hea => h ⟨e, he, hea⟩).1

theorem play_answersAs_bag_two_slots :
    let cs : List Command :=
      [.insert ⟨0x30, 5, .object⟩, .remove 0x10, .insert ⟨0x30, 5, .object⟩,
        .insert ⟨0x20, 2 ^ 63, .scratch⟩, .insert ⟨0x10, 2 ^ 63 - 6, .buffer⟩]
    Along 2 (Fits 2) cs ∧ Along 2 Fresh cs ∧
      ∃ past t, play 2 cs = .ok (past, t) ∧ t.AnswersAs past.bag ∧
        past.bag.map pair = past.map.entries := by
  intro cs
  have hfit : Along 2 (Fits 2) cs := by
    refine ⟨⟨⟨⟨⟨trivial, ?_⟩, ?_⟩, ?_⟩, ?_⟩, ?_⟩ <;> rintro _ _ ⟨⟩ <;> decide
  have hfresh : Along 2 Fresh cs := by
    refine ⟨⟨⟨⟨⟨trivial, ?_⟩, ?_⟩, ?_⟩, ?_⟩, ?_⟩ <;> rintro _ _ ⟨⟩ <;> decide
  obtain ⟨past, t, hp, ha, hmap⟩ := play_answersAs_bag (by decide) cs hfit
  exact ⟨hfit, hfresh, past, t, hp, ha, (hmap hfresh).1⟩

end HeapGuard.Ledger
