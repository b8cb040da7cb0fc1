/-
What a log tells about one resource.

The log of a run has the entries of all resources in the order in which they were made, and
an entry says under which name something is tracked, not for which resource it was done: what
a resource has put aside is logged under another name than the resource.  So the `trace` of a
run keeps with each entry the place of the instruction that made it, and an entry is told
about the resource in whose subroutine that place lies.

A check that has to wait is made again, and logged again.  `mergePolls` keeps one entry of
such repetitions.  Adding an entry at the end either repeats the last check, and changes
nothing, or adds it: `mergePolls_concat`.
-/
import Mathlib.Data.List.Destutter
import Provisioning.Proofs.Run.Safety

namespace Provisioning

/-! ### Polls -/

/-- Whether an operation only looks whether something is done. -/
def Operation.isCheck (o : Operation) : Bool := "CHECK_".toList.isPrefixOf o.name.toList

theorem isCheck_of_waits {op : ResourceOp} (h : op.waits = true) (name : String) :
    (op.record name).isCheck = true := by
  have hword : "CHECK_".toList.isPrefixOf op.word.toList = true := by
    revert h
    cases op <;> decide +kernel
  exact hword

/-- The second entry does not repeat a check. -/
def Operation.Advances (o o' : Operation) : Prop := ¬ (o' = o ∧ o'.isCheck = true)

instance : DecidableRel Operation.Advances := fun _ _ => instDecidableNot

/-- A log without immediate repetitions of checks. -/
def mergePolls (os : List Operation) : List Operation := os.destutter Operation.Advances

/-- An element at the end is dropped if it must not follow the last that is kept. -/
theorem destutter'_concat {α : Type} {R : α → α → Prop} [DecidableRel R] (a b : α)
    (l : List α) : ∃ last, (l.destutter' R a).getLast? = some last ∧
      (l ++ [b]).destutter' R a = l.destutter' R a ++ if R last b then [b] else [] := by
  induction l generalizing a with
  | nil =>
    refine ⟨a, rfl, ?_⟩
    rw [List.nil_append, List.destutter'_singleton, List.destutter'_nil]
    split <;> rfl
  | cons c l ih =>
    by_cases h : R a c
    · obtain ⟨last, hlast, heq⟩ := ih c
      refine ⟨last, ?_, ?_⟩
      · rw [List.destutter'_cons_pos _ h, List.getLast?_cons, hlast]
        rfl
      · rw [List.cons_append, List.destutter'_cons_pos _ h, List.destutter'_cons_pos _ h, heq,
          List.cons_append]
    · obtain ⟨last, hlast, heq⟩ := ih a
      refine ⟨last, ?_, ?_⟩
      · rw [List.destutter'_cons_neg _ h, hlast]
      · rw [List.cons_append, List.destutter'_cons_neg _ h, List.destutter'_cons_neg _ h, heq]

/-- An entry at the end is added unless it repeats a check. -/
theorem mergePolls_concat (os : List Operation) (o : Operation) :
    mergePolls (os ++ [o]) =
      if (mergePolls os).getLast? = some o ∧ o.isCheck = true then mergePolls os
      else mergePolls os ++ [o] := by
  cases os with
  | nil => rfl
  | cons a l =>
    obtain ⟨last, hlast, heq⟩ := destutter'_concat (R := Operation.Advances) a o l
    have hmerge : mergePolls (a :: l) = l.destutter' Operation.Advances a := rfl
    show (l ++ [o]).destutter' Operation.Advances a = _
    rw [heq, hmerge, hlast]
    by_cases h : o = last ∧ o.isCheck = true
    · have hrepeats : ¬ last.Advances o := fun hadvances => hadvances h
      rw [if_neg hrepeats, if_pos ⟨congrArg some h.1.symm, h.2⟩, List.append_nil]
    · have hnot : ¬ (some last = some o ∧ o.isCheck = true) := fun hn =>
        h ⟨(Option.some.inj hn.1).symm, hn.2⟩
      have hadvances : last.Advances o := h
      rw [if_pos hadvances, if_neg hnot]

/-! ### Traces -/

namespace Run

variable {W : Type} {p : Program} {types : Registry W} {r : Run W}

/-- The log entries that up to `n` steps add, each with the place of the instruction that
made it. -/
def trace (p : Program) (types : Registry W) (r : Run W) : (n : Nat) → List (Nat × Operation)
  | 0 => []
  | n + 1 =>
    let before := steps p types n r
    trace p types r n ++
      ((before.step p types).log.drop before.log.length).map (before.memory.programCounter, ·)

/-- What the next step will log. -/
def upcoming (p : Program) (m : Memory) : List Operation :=
  if m.halted p.size then []
  else
    match p.instructions[m.programCounter]? with
    | none => []
    | some i => logged i m

theorem upcoming_of_halted {m : Memory} (h : m.halted p.size = true) : upcoming p m = [] :=
  if_pos h

theorem upcoming_of_instruction {m : Memory} {i : Instruction}
    (hhalted : m.halted p.size = false) (hi : p.instructions[m.programCounter]? = some i) :
    upcoming p m = logged i m := by
  unfold upcoming
  rw [if_neg (by rw [hhalted]; nofun), hi]

/-- An instruction logs at most one entry. -/
theorem upcoming_eq (p : Program) (m : Memory) :
    upcoming p m = [] ∨ ∃ o, upcoming p m = [o] := by
  unfold upcoming
  split
  · exact .inl rfl
  · split
    · exact .inl rfl
    · next i _ =>
      cases i with
      | resource op => exact .inr ⟨_, rfl⟩
      | _ => exact .inl rfl

theorem log_settle (log : List Operation) (o : Outcome W) (pc : Nat) :
    (settle log o pc).log = log := by
  unfold settle
  split <;> rfl

/-- A step adds to the log what was upcoming. -/
theorem log_step (r : Run W) : (r.step p types).log = r.log ++ upcoming p r.memory := by
  unfold step upcoming ended
  split
  · exact (List.append_nil _).symm
  · dsimp only
    cases p.instructions[r.memory.programCounter]? with
    | none => exact (List.append_nil _).symm
    | some i => exact log_settle _ _ _

theorem trace_succ (r : Run W) (n : Nat) :
    trace p types r (n + 1) = trace p types r n ++
      (upcoming p (steps p types n r).memory).map
        ((steps p types n r).memory.programCounter, ·) := by
  show trace p types r n ++ _ = _
  rw [log_step, List.drop_left]

/-- The trace has the entries of the log. -/
theorem log_steps (r : Run W) (n : Nat) :
    (steps p types n r).log = r.log ++ (trace p types r n).map Prod.snd := by
  induction n with
  | zero => exact (List.append_nil _).symm
  | succ n ih =>
    rw [steps_succ, log_step, ih, trace_succ, List.map_append, List.map_map, List.append_assoc]
    congr 2
    exact (List.map_id _).symm

end Run

/-! ### Owners -/

namespace Layout

/-- The resource in whose subroutine a place lies. -/
def owner? (l : Layout) (i : Nat) : Option String :=
  (l.placed.find? fun e => e.2 ≤ i && i < e.2 + e.1.size).map fun e => e.1.owner

theorem owner_of_placed {l : Layout} {e : Subroutine × Nat} (he : e ∈ l.placed) {i : Nat}
    (hi : e.2 ≤ i ∧ i < e.2 + e.1.size) : l.owner? i = some e.1.owner := by
  have hsome : (l.placed.find? fun e => e.2 ≤ i && i < e.2 + e.1.size).isSome = true :=
    List.find?_isSome.2 ⟨e, he, by simpa using hi⟩
  obtain ⟨f, hf⟩ := Option.isSome_iff_exists.1 hsome
  have hplace : f.2 ≤ i ∧ i < f.2 + f.1.size := by simpa using List.find?_some hf
  have heq : f = e := eq_of_place (List.mem_of_find?_eq_some hf) he hplace hi
  unfold owner?
  rw [hf, heq]
  rfl

/-- The driver belongs to no resource. -/
theorem owner_of_driver {l : Layout} {i : Nat} (hi : i < l.driver.length) :
    l.owner? i = none := by
  have hnone : (l.placed.find? fun e => e.2 ≤ i && i < e.2 + e.1.size) = none := by
    refine List.find?_eq_none.2 fun e he => ?_
    have hle : l.driver.length ≤ e.2 := le_of_placedFrom he
    simp only [Bool.and_eq_true, decide_eq_true_eq]
    omega
  unfold owner?
  rw [hnone]
  rfl

/-- The entries that were made in the subroutines of a resource. -/
def told (l : Layout) (name : String) (entries : List (Nat × Operation)) : List Operation :=
  (entries.filter fun e => l.owner? e.1 = some name).map Prod.snd

theorem told_append (l : Layout) (name : String) (es fs : List (Nat × Operation)) :
    l.told name (es ++ fs) = l.told name es ++ l.told name fs := by
  unfold told
  rw [List.filter_append, List.map_append]

/-- Of entries made at one place all or none are told. -/
theorem told_map (l : Layout) (name : String) (i : Nat) (os : List Operation) :
    l.told name (os.map (i, ·)) = if l.owner? i = some name then os else [] := by
  unfold told
  split
  · next h =>
    rw [List.filter_eq_self.2 (by simpa using fun _ _ => h), List.map_map]
    exact List.map_id _
  · next h =>
    rw [List.filter_eq_nil_iff.2 (by simpa using fun _ _ => h)]
    rfl

end Layout

end Provisioning
