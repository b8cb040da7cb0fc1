/-
Names with a meaning of their own.

A resource is known by the name its author chose.  Two names are built from it by
convention: the object a resource leaves behind when its replacement is created first
is tracked under a marked name, and one output field stands for the identifier the
backend assigned.
-/
namespace Provisioning

/-- The output field that means "the identifier the backend assigned". -/
def remoteIdField : String := "remote_id"

/-- What stands in front of the name of an object whose deletion was put off. -/
def deletableMark : String := "_deletable_"

/-- The name under which the object that `name` leaves behind is tracked. -/
def deletable (name : String) : String := deletableMark ++ name

theorem ne_deletable (name : String) : name ≠ deletable name := by
  intro h
  have hlength := congrArg String.length h
  simp [deletable, deletableMark] at hlength

theorem deletable_inj {name name' : String} (h : deletable name = deletable name') :
    name = name' := by
  simpa [deletable, String.append_right_inj] using h

/-- The name without the mark of a put-off deletion, or the name itself. -/
def undeletable (name : String) : String :=
  match name.dropPrefix? deletableMark with
  | some rest => rest.toString
  | none => name

theorem undeletable_deletable (name : String) : undeletable (deletable name) = name := by
  unfold undeletable
  split
  · next rest h =>
    have happend := String.eq_append_of_dropPrefix?_string_eq_some h
    exact ((String.append_right_inj _).1 happend).symm
  · next h =>
    have hstarts : (deletable name).startsWith deletableMark = true := by
      rw [String.startsWith_string_iff]
      simp [deletable]
    have hnone := String.Slice.dropPrefix?_eq_none_iff.1 h
    exact absurd (hnone.symm.trans hstarts) Bool.false_ne_true

/-- Each name once, at its first place. -/
def distinct : List String → List String
  | [] => []
  | a :: rest => a :: (distinct rest).filter (· ≠ a)

theorem mem_distinct {names : List String} {a : String} : a ∈ distinct names ↔ a ∈ names := by
  induction names with
  | nil => simp [distinct]
  | cons b rest ih =>
    by_cases h : a = b <;> simp [distinct, h, ih]

end Provisioning
