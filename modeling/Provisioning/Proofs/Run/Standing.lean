/-
How a resource stands to its object.

What was done to a resource tells what is known about its object: that it is there once it was
read, how it compares with the declared fields once the two were compared, and that it is as
declared once it was created or updated.  Once it is deleted or put aside, nothing is known.
`standing` looks for the last operation that matters, as `refreshed` does for the outputs.

At the end of the word of a declared resource its object is as declared: it was created or
updated, or it was compared and nothing had to change.
-/
import Mathlib.Data.List.Infix
import Provisioning.Proofs.Run.Staging

namespace Provisioning

/-- What is known about the object of a resource. -/
inductive Standing where
  | unknown
  /-- It is there. -/
  | there
  /-- It was compared with the declared fields. -/
  | compared
  /-- It is as declared. -/
  | inOrder
deriving DecidableEq

/-- What is known once the operation is done. -/
def ResourceOp.stands (op : ResourceOp) (before : Standing) : Standing :=
  match op with
  | .read => .there
  | .rescmp => .compared
  | .create | .update => .inOrder
  | .delete | .checkDelete | .markDeletable => .unknown
  | .checkCreate | .checkUpdate | .checkExist | .filter => before

namespace Resource

/-- What is known after all this was done. -/
def standing (r : Resource) (os : List Operation) : Standing :=
  r.verdict ResourceOp.stands .unknown os

@[simp] theorem standing_concat (r : Resource) (os : List Operation) (op : ResourceOp)
    (name : String) : r.standing (os ++ [op.record name]) =
      if name = r.name then op.stands (r.standing os) else r.standing os :=
  r.verdict_concat _ _ os op name

section

variable {r : Resource} {createMissing : Bool} {action : Action} {d : Option Decision}
  {os : List Operation} {name : String}

/-- Before something missing is replaced, nothing is known. -/
theorem standing_probing (r : Resource) (createMissing : Bool) :
    r.standing (r.probing createMissing) = .unknown := by
  cases createMissing <;>
    simp [standing, verdict, probing, did, weigh_record, ResourceOp.stands]

theorem standing_comparing (r : Resource) (createMissing : Bool) :
    r.standing (r.comparing createMissing) = .compared := by
  cases createMissing <;>
    simp [standing, verdict, comparing, probing, did, weigh_record, ResourceOp.stands]

theorem standing_create (r : Resource) (os : List Operation) :
    r.standing (os ++ [r.did .create]) = .inOrder := by
  simp [did, ResourceOp.stands]

theorem standing_update (r : Resource) (os : List Operation) :
    r.standing (os ++ [r.did .update]) = .inOrder := by
  simp [did, ResourceOp.stands]

/-- In the end the object is as declared. -/
theorem standing_word (r : Resource) (haction : action ≠ .delete)
    (hd : d ∈ settled createMissing action) :
    r.standing (r.word createMissing action d) = .inOrder ∨
      (r.standing (r.word createMissing action d) = .compared ∧ d = some .noChange) := by
  have hne := (ne_deletable r.name).symm
  cases action with
  | delete => exact absurd rfl haction
  | create => simp [word, standing, verdict, did, weigh_record, ResourceOp.stands]
  | update =>
    rcases d with _ | _ | _ | _ | _ <;> cases createMissing <;>
      cases hlate : r.schema.deleteAtEnd <;>
      simp_all [word, settled, probing, standing, verdict, did, didAside, weigh_record,
        ResourceOp.stands]

theorem update_of_isPrefix
    (h : os ++ [ResourceOp.update.record name] <+: r.word createMissing action d) :
    name = r.name ∧ action = .update ∧ r.standing os = .compared ∧ d = some .modify := by
  cases letter_of_isPrefix h with
  | modify => exact ⟨rfl, rfl, standing_comparing r createMissing, rfl⟩

/-- An object whose outputs were stored is there. -/
theorem standing_ne_of_refreshed (h : os <+: r.word createMissing action d)
    (hfresh : r.refreshed os = true) : r.standing os ≠ .unknown := by
  have hne := (ne_deletable r.name).symm
  induction h using begun_induction with
  | nil => cases hfresh
  | letter os op name h hletter ih =>
    rw [refreshed_concat] at hfresh
    rw [standing_concat]
    cases hletter <;>
      simp_all [standing, verdict, did, weigh_record, ResourceOp.stands, ResourceOp.refreshes]

theorem start_of_touches {phase : Phase} {op : ResourceOp} (haction : action ≠ .delete)
    (h : op.record r.name ∈ r.work createMissing action phase d) (hop : op.touches = true) :
    phase = .start := by
  have hne := ne_deletable r.name
  cases phase with
  | start => rfl
  | check | commit | finish =>
    cases action <;> rcases d with _ | _ | _ | _ | _ <;>
      cases hlate : r.schema.deleteAtEnd <;>
      simp [work, did, didAside, hlate, hne, ResourceOp.record_inj] at h haction <;>
      simp [h, ResourceOp.touches] at hop

end

end Resource

end Provisioning
