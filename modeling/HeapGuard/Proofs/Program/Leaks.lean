import HeapGuard.Proofs.Program.Runs

/-! # Leaks of programs

At every point of a run the leak report counts the blocks that the calls so far have
asked for, less those that they gave back. Printing and reading integers count for
nothing, although they borrow blocks.
-/

namespace HeapGuard.Program

open BlockSource (Lawful)
open scoped List

variable {N : Nat} {S : Type} [BlockSource S] {live live' : List Entry}
  {m m' : Machine (Guarded N S)} {ds : List Deed}

theorem Deed.kind_ne_of_mem_settle (d : Deed) {memory : Memory} {reply : Reply}
    (h : ∀ e ∈ live, e.kind ≠ .scratch) :
    ∀ e ∈ d.settle live memory reply, e.kind ≠ .scratch := by
  unfold settle
  split
  · exact List.forall_mem_cons.mpr ⟨by simp, h⟩
  · split
    · exact h
    · exact List.forall_mem_cons.mpr ⟨by simp, h⟩
  · exact List.forall_mem_cons.mpr ⟨by simp, List.forall_mem_cons.mpr ⟨by simp, h⟩⟩
  -- the three calls that give a block back
  iterate 3
    · split
      · exact h
      · exact fun e he => h e (List.mem_filter.mp he).1
  · exact h

theorem kind_ne_of_play (h : ∀ e ∈ live, e.kind ≠ .scratch)
    (hrun : (play live ds).run m = .ok live' m') : ∀ e ∈ live', e.kind ≠ .scratch := by
  induction ds generalizing live m with
  | nil =>
    cases hrun
    exact h
  | cons d ds ih =>
    rcases hd : d.perform.run m with ⟨reply, m₁⟩ | ⟨halt, m₁⟩
    · simp only [play, EStateM.run_bind, hd, Action.run_memory] at hrun
      exact ih (d.kind_ne_of_mem_settle h) hrun
    · simp [play, hd] at hrun

/-- The ledger and the leak report agree with what was done. -/
structure Tallied (done : List Deed) (live : List Entry) (m : Machine (Guarded N S)) : Prop where
  leaks : ∃ (n : Nat) (m' : Machine (Guarded N S)),
    Call.reportLeaks.run.run m = .ok (.number n) m' ∧
      n + done.countP Deed.isRelease =
        done.countP Deed.isAlloc + done.countP Deed.isNewString + 2 * done.countP Deed.isOfInt32
  liveBytes_eq : m.heap.ledger.liveBytes = (live.map Entry.size).sum
  entries_perm : m.heap.ledger.entries ~ live
  no_scratch : ∀ e ∈ m.heap.ledger.entries, e.kind ≠ .scratch

section

variable {s₀ : S} {m₀ : Machine (Guarded N S)}

theorem Advance.tallied (h : Advance s₀ ds [] live m₀ m)
    (hrun : (play [] ds).run m₀ = .ok live m) : Tallied ds live m := by
  obtain ⟨log, hacc⟩ := h.accounted
  constructor
  · obtain ⟨err, hleaks⟩ := Guarded.exists_run_reportLeaks m
    refine ⟨m.heap.ledger.live, { m with err }, by simp [Call.run, hleaks], ?_⟩
    rw [hacc.live_eq, h.length_eq, List.length_nil, Nat.zero_add]
  · exact hacc.liveBytes_eq
  · exact hacc.entries_perm
  · intro e he
    exact kind_ne_of_play (by simp) hrun e (hacc.entries_perm.subset he)

/-- In a run that does not end early, the accounts are right after every deed. -/
theorem play_tallied (hN : 0 < N) (hs : Lawful s₀) (h₀ : m₀.heap = .new N s₀)
    (hok : ∀ m, (play [] ds).run m₀ ≠ .error .abort m) {done : List Deed} (hd : done <+: ds) :
    ∃ live m, (play [] done).run m₀ = .ok live m ∧ Tallied done live m := by
  rcases play_cases hN hs (.new h₀) done with ⟨m, hrun⟩ | ⟨live, m, hrun, hadv⟩
  · -- what would end a part of the run would end the whole
    obtain ⟨rest, rfl⟩ := hd
    refine absurd ?_ (hok m)
    rw [play_append, EStateM.run_bind, hrun]
  · exact ⟨live, m, hrun, hadv.tallied hrun⟩

end

theorem play_tallied_integer :
    let m₀ := Guarded.onPage 4
    let obj := Arena.base + 128
    let ds : List Deed := [.call (.setScratchSize 0), .call (.alloc 0), .call (.ofInt32 (-7)),
      .call (.print obj), .call (.toInt32 obj), .call (.free 0), .call (.deleteString obj),
      .call (.newString (Arena.base + 64))]
    (∀ m, (play [] ds).run m₀ ≠ .error .abort m) ∧
      ∃ live m m', (play [] ds).run m₀ = .ok live m ∧ Tallied ds live m ∧
        Call.reportLeaks.run.run m = .ok (.number 3) m' := by
  intro m₀ obj ds
  have hok : ∀ m, (play [] ds).run m₀ ≠ .error .abort m :=
    Action.run_ne_error (by decide +kernel) .abort
  obtain ⟨live, m, hrun, ht⟩ := play_tallied (by decide) Arena.lawful_page rfl hok
    (List.prefix_refl ds)
  obtain ⟨n, m', hleaks, hn⟩ := ht.leaks
  obtain rfl : n = 3 := by
    change n + 1 = 1 + 1 + 2 * 1 at hn
    omega
  exact ⟨hok, live, m, m', hrun, ht, hleaks⟩

end HeapGuard.Program
