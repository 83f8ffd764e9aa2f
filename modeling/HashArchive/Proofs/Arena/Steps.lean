/-
  HashArchive.Proofs.Arena.Steps

  Changes of arenas as steps one after another: what a step answers and leaves is what the next
  one starts from (`run_bind_of_ok`).  A change ends with an answer, with an error, or with the
  trap of a counter that has run out of numbers (`Ends`), and so do changes one after another
  (`Ends.bind`).
-/
import Mathlib
import HashArchive.Arena.Edit

namespace HashArchive

/-! ## Counters -/

namespace Handle

variable {ι : Type} [Handle ι]

/-- The next number is the successor. -/
def Lawful (next : ι → Option ι) : Prop :=
  ∀ id following, next id = some following → toNat following = toNat id + 1

/-- Some number below this one has no next one. -/
def RunsOut (next : ι → Option ι) (n : Nat) : Prop :=
  ∃ last, next last = none ∧ toNat last < n

theorem RunsOut.mono {next : ι → Option ι} {n m : Nat} (h : RunsOut next n) (hle : n ≤ m) :
    RunsOut next m := by
  obtain ⟨last, hnone, hlt⟩ := h
  exact ⟨last, hnone, lt_of_lt_of_le hlt hle⟩

theorem lawful_endless : Lawful endless := by
  rintro id following ⟨⟩
  rfl

theorem not_runsOut_endless (n : Nat) : ¬ RunsOut endless n := by
  rintro ⟨last, ⟨⟩, -⟩

theorem lawful_checked : Lawful checked := by
  intro id following h
  rw [checked] at h
  split at h
  · next hlt =>
    obtain rfl := Option.some.inj h
    show (id + 1).toNat = id.toNat + 1
    rw [UInt32.toNat_add]
    exact Nat.mod_eq_of_lt hlt
  · cases h

/-- There are 2^32 numbers of 32 bits. -/
theorem succ_eq_of_checked_eq_none {last : UInt32} (h : checked last = none) :
    last.toNat + 1 = 2 ^ 32 := by
  have hlt := last.toNat_lt
  rw [checked] at h
  split at h
  · cases h
  · next hlast =>
    rw [UInt32.size] at hlast
    omega

theorem RunsOut.le_of_checked {n : Nat} (h : RunsOut checked n) : 2 ^ 32 ≤ n := by
  obtain ⟨last, hnone, hlt⟩ := h
  rw [← succ_eq_of_checked_eq_none hnone]
  exact hlt

end Handle

namespace Arena

variable {ι : Type} [Handle ι] {α β : Type} {arena after : Arena ι} {a : α} {halt : Halt}

/-! ## Looks at an arena -/

theorem node_of_getElem? {id : ι} {node : Node ι} (h : arena.directories[id]? = some node) :
    arena.node id = pure node := by
  rw [Arena.node, h]

/-! ## Steps -/

section Steps

variable {steps : Run ι α} {more : α → Run ι β}

theorem run_pure (a : α) (arena : Arena ι) : run (pure a : Run ι α) arena = some (.ok a, arena) :=
  rfl

theorem run_bind_of_ok (h : run steps arena = some (.ok a, after)) :
    run (steps >>= more) arena = run (more a) after := by
  show (steps arena).bind _ = _
  rw [show steps arena = _ from h]
  rfl

theorem run_bind_of_error (h : run steps arena = some (.error halt, after)) :
    run (steps >>= more) arena = some (.error halt, after) := by
  show (steps arena).bind _ = _
  rw [show steps arena = _ from h]
  rfl

theorem run_bind_of_none (h : run steps arena = none) : run (steps >>= more) arena = none := by
  show (steps arena).bind _ = _
  rw [show steps arena = _ from h]
  rfl

theorem run_get_bind {more : Arena ι → Run ι β} (arena : Arena ι) :
    run (get >>= more) arena = run (more arena) arena := rfl

theorem run_modify_bind {f : Arena ι → Arena ι} {more : PUnit → Run ι β} (arena : Arena ι) :
    run (modify f >>= more) arena = run (more ⟨⟩) (f arena) := rfl

theorem run_ask_bind {query : Arena ι → Query α} (h : query arena = pure a) :
    run (ask query >>= more) arena = run (more a) arena := by
  apply run_bind_of_ok
  show (query arena).run.map _ = _
  rw [h]
  rfl

theorem run_node_bind {id : ι} {node : Node ι} {more : Node ι → Run ι β}
    (h : arena.directories[id]? = some node) :
    run (ask (·.node id) >>= more) arena = run (more node) arena :=
  run_ask_bind (node_of_getElem? h)

theorem run_node_of_none {id : ι} (h : arena.directories[id]? = none) :
    run (ask (·.node id)) arena = some (.error .trap, arena) := by
  show (arena.node id).run.map _ = _
  rw [Arena.node, h]
  rfl

theorem run_change {id : ι} {node : Node ι} (f : Node ι → Node ι)
    (h : arena.directories[id]? = some node) :
    run (change id f) arena = some (.ok (), arena.setNode id (f node)) := by
  rw [Arena.change, run_node_bind h]
  rfl

theorem run_createChild_of_none {next : ι → Option ι} (h : next arena.nextId = none) (id : ι)
    (name : String) : run (createChild next id name) arena = some (.error .trap, arena) := by
  rw [createChild, run_get_bind]
  dsimp only
  rw [h]
  rfl

/-- A new directory is in the table before the one above leads to it. -/
theorem run_createChild_of_some {next : ι → Option ι} {following : ι}
    (h : next arena.nextId = some following) (id : ι) (name : String) :
    run (createChild next id name) arena
      = run (change id (Node.link name arena.nextId) >>= fun _ => pure arena.nextId)
          ({ arena with nextId := following }.setNode arena.nextId
            { name, parent? := some id }) := by
  rw [createChild, run_get_bind]
  dsimp only
  rw [h]
  dsimp only
  rw [run_modify_bind]

end Steps

/-! ## Ends -/

/-- How a change of an arena ends: with an answer, with an error, or with a trap if there is a
    reason for one. -/
inductive Ends (steps : Run ι α) (arena : Arena ι) (reason : Prop)
    (post : α → Arena ι → Prop) (fail : ArchiveError → Arena ι → Prop) : Prop
  | answer (a : α) (after : Arena ι) (eq : run steps arena = some (.ok a, after))
      (holds : post a after)
  | fault (error : ArchiveError) (after : Arena ι)
      (eq : run steps arena = some (.error (.fault error), after)) (holds : fail error after)
  | trap (after : Arena ι) (eq : run steps arena = some (.error .trap, after)) (holds : reason)

section Ends

variable {steps : Run ι α} {more : α → Run ι β} {reason reason' : Prop}
  {post : α → Arena ι → Prop} {post' : β → Arena ι → Prop}
  {fail fail' : ArchiveError → Arena ι → Prop}

theorem Ends.pure (h : post a arena) : Ends (pure a) arena reason post fail := .answer a arena rfl h

/-- What follows a change starts from what the change has left. -/
theorem Ends.bind (h : Ends steps arena reason post fail) (hreason : reason → reason')
    (hfail : ∀ error after, fail error after → fail' error after)
    (hmore : ∀ a after, post a after → Ends (more a) after reason' post' fail') :
    Ends (steps >>= more) arena reason' post' fail' := by
  cases h with
  | answer a after eq holds =>
    cases hmore _ _ holds with
    | answer b final eq' holds' => exact .answer _ _ ((run_bind_of_ok eq).trans eq') holds'
    | fault error final eq' holds' => exact .fault _ _ ((run_bind_of_ok eq).trans eq') holds'
    | trap final eq' holds' => exact .trap _ ((run_bind_of_ok eq).trans eq') holds'
  | fault error after eq holds => exact .fault _ _ (run_bind_of_error eq) (hfail _ _ holds)
  | trap after eq holds => exact .trap _ (run_bind_of_error eq) (hreason holds)

theorem Ends.mono {post' : α → Arena ι → Prop} (h : Ends steps arena reason post fail)
    (hreason : reason → reason') (hpost : ∀ a after, post a after → post' a after)
    (hfail : ∀ error after, fail error after → fail' error after) :
    Ends steps arena reason' post' fail' := by
  cases h with
  | answer a after eq holds => exact .answer _ _ eq (hpost _ _ holds)
  | fault error after eq holds => exact .fault _ _ eq (hfail _ _ holds)
  | trap after eq holds => exact .trap _ eq (hreason holds)

theorem Ends.of_run_eq {other : Run ι α} {start : Arena ι} (heq : run steps arena = run other start)
    (h : Ends other start reason post fail) : Ends steps arena reason post fail := by
  cases h with
  | answer a after eq holds => exact .answer _ _ (heq.trans eq) holds
  | fault error after eq holds => exact .fault _ _ (heq.trans eq) holds
  | trap after eq holds => exact .trap _ (heq.trans eq) holds

/-- What is answered and left, without a trap, is as expected. -/
theorem Ends.of_run (h : Ends steps arena reason post fail) {answer : Except Halt α}
    (hrun : run steps arena = some (answer, after)) (hgoes : answer ≠ .error .trap) :
    (∃ a, answer = .ok a ∧ post a after) ∨
      ∃ error, answer = .error (.fault error) ∧ fail error after := by
  cases h with
  | answer a final eq holds =>
    obtain ⟨rfl, rfl⟩ := Prod.mk.inj (Option.some.inj (eq.symm.trans hrun))
    exact Or.inl ⟨a, rfl, holds⟩
  | fault error final eq holds =>
    obtain ⟨rfl, rfl⟩ := Prod.mk.inj (Option.some.inj (eq.symm.trans hrun))
    exact Or.inr ⟨error, rfl, holds⟩
  | trap final eq holds =>
    obtain ⟨rfl, -⟩ := Prod.mk.inj (Option.some.inj (eq.symm.trans hrun))
    exact absurd rfl hgoes

/-- The answer of a change that has one is as expected. -/
theorem Ends.post_of_run (h : Ends steps arena reason post fail)
    (hrun : run steps arena = some (.ok a, after)) : post a after := by
  rcases h.of_run hrun nofun with ⟨b, hb, hpost⟩ | ⟨error, herror, -⟩
  · obtain rfl := Except.ok.inj hb
    exact hpost
  · cases herror

/-- Without a reason for a trap and without errors there is an answer. -/
theorem Ends.exists_answer (h : Ends steps arena reason post fail) (hreason : ¬ reason)
    (hfail : ∀ error after, ¬ fail error after) :
    ∃ a after, run steps arena = some (.ok a, after) ∧ post a after := by
  cases h with
  | answer a after eq holds => exact ⟨_, _, eq, holds⟩
  | fault error after eq holds => exact absurd holds (hfail _ _)
  | trap after eq holds => exact absurd holds hreason

end Ends

end Arena

end HashArchive
