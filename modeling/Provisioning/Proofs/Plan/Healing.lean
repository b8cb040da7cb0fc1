/-
Compiling with and without the replacement of what is missing.

Two bodies of an update differ: its start first probes whether the object is there, and its
check first asks whether a replacement was begun.  Either is a `detour` in front of what the
routine does anyway.  All other bodies are the same, the driver makes the same calls, and the
tables of declared values are the same.  What comes on top are the two routines that the
detours may branch off to, so a plan that compiles with them compiles without them.
-/
import Provisioning.Proofs.Plan.Recompile

namespace Provisioning

namespace Resource

/-- What a routine does first, to find out what is missing. -/
def detour (r : Resource) : Routine → List Instruction
  | .update => Emit.probe r
  | .checkUpdate => Emit.branch r .missing .missingCreateCheck
  | _ => []

/-- **The instructions of a routine are the same but for the detour.** -/
theorem script_eq (r : Resource) (routine : Routine) :
    r.script true routine = r.detour routine ++ r.script false routine := by
  cases routine <;> simp [script, detour]

theorem body_eq (r : Resource) (routine : Routine) :
    (r.piece true routine).body =
      .clear :: (r.detour routine ++ (r.script false routine ++ [.ret])) := by
  simp [piece, Subroutine.body, script_eq]

theorem routines_sublist (action : Action) :
    (routines action false).Sublist (routines action true) := by
  cases action with
  | create | delete => exact List.Sublist.refl _
  | update =>
    refine List.Sublist.append (List.Sublist.refl _) (List.Sublist.map _ ?_)
    exact List.Sublist.append (List.Sublist.refl _) (List.nil_sublist _)

/-- Of its keyed subroutines, only the bodies and their number are different. -/
theorem map_pieces_sublist {α : Type} (r : Resource) (action : Action)
    (f : String × Subroutine → α)
    (hf : ∀ step routine, f (subroutineKey r.name step, r.piece false routine) =
      f (subroutineKey r.name step, r.piece true routine)) :
    ((r.pieces action false).map f).Sublist ((r.pieces action true).map f) := by
  have hmap : (r.pieces action false).map f =
      (routines action false).map fun e =>
        f (subroutineKey r.name e.1, r.piece true e.2) := by
    rw [pieces, List.map_map]
    exact List.map_congr_left fun e _ => hf e.1 e.2
  rw [hmap, pieces, List.map_map]
  exact (routines_sublist action).map _

end Resource

namespace Compilation

variable {declaration : Declaration} {prior : Snapshot}

/-- **What compiles with the replacement of what is missing compiles without it.** -/
theorem nonempty_unhealing (c : Compilation ⟨declaration, prior, true⟩) :
    Nonempty (Compilation ⟨declaration, prior, false⟩) := by
  obtain ⟨table, htable⟩ := exists_table c false c.actions_eq
  exact ⟨c.levels, c.actions, table, c.rom, c.levels_eq, c.actions_eq, htable, c.rom_eq⟩

theorem actions_unhealing (c : Compilation ⟨declaration, prior, true⟩)
    (c' : Compilation ⟨declaration, prior, false⟩) : c'.actions = c.actions :=
  Except.ok.inj (c'.actions_eq.symm.trans c.actions_eq)

theorem rom_unhealing (c : Compilation ⟨declaration, prior, true⟩)
    (c' : Compilation ⟨declaration, prior, false⟩) : c'.rom = c.rom :=
  Except.ok.inj (c'.rom_eq.symm.trans c.rom_eq)

theorem schedule_unhealing (c : Compilation ⟨declaration, prior, true⟩)
    (c' : Compilation ⟨declaration, prior, false⟩) : c'.schedule = c.schedule := by
  have hlevels : c'.levels = c.levels := Except.ok.inj (c'.levels_eq.symm.trans c.levels_eq)
  rw [schedule, schedule, hlevels]

/-- Names that are distinct with the additional routines are distinct without them. -/
theorem Distinct.unhealing {c : Compilation ⟨declaration, prior, true⟩} (h : c.Distinct)
    (c' : Compilation ⟨declaration, prior, false⟩) :
    c'.Distinct := by
  have hsublist : ∀ {α : Type} (f : String × Subroutine → α),
      (∀ (r : Resource) step routine, f (subroutineKey r.name step, r.piece false routine) =
        f (subroutineKey r.name step, r.piece true routine)) →
      (c'.pieces.map f).Sublist (c.pieces.map f) := by
    intro α f hf
    unfold pieces
    rw [actions_unhealing c c', List.map_flatMap, List.map_flatMap]
    induction c.actions with
    | nil => exact List.Sublist.refl _
    | cons ra rest ih =>
      rw [List.flatMap_cons, List.flatMap_cons]
      exact (ra.1.map_pieces_sublist ra.2 f (hf ra.1)).append ih
  exact ⟨(hsublist Prod.fst fun _ _ _ => rfl).nodup h.keys,
    (hsublist (fun e => e.2.label) fun _ _ _ => rfl).nodup h.labels⟩

end Compilation

end Provisioning
