/-
Any state of a run can be compiled again.

A run may be cut off anywhere, by a fault or because nobody lets it go on, and what it has
left may then be compiled with another declaration.  Two things could go wrong.  An
identifier could be lost, because nothing is recorded about its name; and the next
compilation could fail, because what is recorded leads round in circles or nowhere.

Neither happens, whatever the names are and whatever the backends do.  A run tracks nothing
but names that the engine knows about, and what it knows stems from the first plan.
-/
import Provisioning.Proofs.Plan.Succession
import Provisioning.Proofs.Run.Availability
import Provisioning.Proofs.Run.Footing
import Provisioning.Proofs.Run.Handover

namespace Provisioning

namespace Engine

variable {W : Type} {types : Registry W} {plan : Plan} {e : Engine W}

theorem stems_of_mayTrack (he : Engine.compile types plan = .ok e) {name : String}
    (h : plan.MayTrack name) (id : Json) :
    ∃ tracked, e.tracked? name id = some tracked ∧ tracked.remoteId = id ∧
      plan.Stems name tracked := by
  cases hdeclared : plan.declaration.get? name with
  | some r =>
    exact ⟨_, tracked?_declared he hdeclared id, rfl, .declared hdeclared rfl rfl⟩
  | none =>
    cases hprior : plan.prior.get? name with
    | some old =>
      exact ⟨_, tracked?_kept he hdeclared hprior id, rfl, .kept hdeclared hprior rfl rfl⟩
    | none =>
      -- Neither declared nor tracked before, so it was put aside.
      cases h with
      | tracked hmem => exact absurd hmem (Entries.get?_eq_none_iff.1 hprior)
      | declared hmem => exact absurd hmem (Entries.get?_eq_none_iff.1 hdeclared)
      | @aside owner howner hname =>
        obtain ⟨r, hr⟩ : ∃ r, plan.declaration.get? owner = some r := by
          rw [← Option.ne_none_iff_exists']
          intro hnone
          exact Entries.get?_eq_none_iff.1 hnone howner
        obtain rfl := plan.declaration.get?_name hr
        subst hname
        exact ⟨_, tracked?_aside he hr hdeclared hprior id, rfl,
          .aside hdeclared hprior hr rfl rfl rfl⟩

/-- In every state of a run, each identifier is recorded with where its name stems from. -/
theorem stems_of_steps (he : Engine.compile types plan = .ok e) (w : W) (n : Nat)
    (name : String) (id : Json)
    (hid : (Run.steps e.program e.registry n (Run.fresh w)).memory.remoteIds.get? name = some id) :
    ∃ tracked, e.tracked? name id = some tracked ∧ tracked.remoteId = id ∧
      plan.Stems name tracked := by
  obtain ⟨hcompile, hregistry, -⟩ := compile_eq_ok he
  obtain ⟨c, hc⟩ := Compilation.compile_eq_ok.1 hcompile
  have hfooting := c.footing_steps types w n
  rw [hc, ← hregistry] at hfooting
  exact stems_of_mayTrack he (hfooting.tracks name (Table.mem_keys_of_get? hid)) id

/-- **The state left by any run can always be compiled again.**  Whatever the names and the
backends are, wherever the run has come to, and whether a fault has stopped it or not: the
snapshot has one entry for each identifier, with that identifier, and with every
self-contained declaration it has levels. -/
theorem recompiles (he : Engine.compile types plan = .ok e)
    (hself : plan.declaration.SelfContained) (w : W) (n : Nat) :
    let m := (Run.steps e.program e.registry n (Run.fresh w)).memory
    ((e.state m).mapValues fun _ t => t.remoteId) = m.remoteIds ∧
      ∀ (d : Declaration) (createMissing : Bool), d.SelfContained →
        ∃ levels, (Plan.mk d (e.state m) createMissing).levels = .ok levels := by
  intro m
  have hstems := stems_of_steps he w n
  obtain ⟨c, -⟩ := Compilation.compile_eq_ok.1 (compile_eq_ok he).1
  constructor
  · exact mapValues_state hstems
  · intro d createMissing hd
    exact Compilation.exists_levels_of_stems hself hd
      (fun name tracked => stems_of_get? hstems) c createMissing

/-- Something is declared, and what was tracked before waited for names that are not known:
one that the replacement of `y` is going to use, and one that another declaration has. -/
def danglingPlan : Plan where
  declaration := plainDeclaration true ["y"]
  prior := Table.ofList [("x", ⟨.str "x", "file", ["_deletable_y", "b"]⟩),
    ("y", ⟨.str "y", "file", ["x"]⟩)]
  createMissing := false

theorem selfContained_dangling : danglingPlan.declaration.SelfContained := by
  refine .add (.empty (Table.ofList [("file", plainSchema true)])) ?_
    (rfl : Declaration.add _ "file" "y" [("name", .json (.str "y")),
      ("contents", .json (.str "new"))] = .ok (_, _))
  exact ⟨trivial, trivial, trivial⟩

/-- When `y` has been put aside, the dangling edges of `x` lead somewhere again. -/
theorem recompiles_dangling :
    ∃ e : Engine Unit, Engine.compile (plainTypes true) danglingPlan = .ok e ∧
      let m := (Run.steps e.program e.registry 25 (Run.fresh ())).memory
      (e.state m).keys = ["x", "_deletable_y"] ∧ m.remoteIds.keys = ["x", "_deletable_y"] ∧
        ∃ levels, (Plan.mk Compilation.linkedDeclaration (e.state m) false).levels =
          .ok levels := by
  obtain ⟨e, he⟩ : ∃ e, Engine.compile (plainTypes true) danglingPlan = .ok e := ⟨_, rfl⟩
  obtain ⟨hids, hlevels⟩ := recompiles he selfContained_dangling () 25
  have hkeys : (e.state (Run.steps e.program e.registry 25 (Run.fresh ())).memory).keys =
      ["x", "_deletable_y"] := by
    obtain rfl : _ = e := Except.ok.inj he
    decide +kernel
  refine ⟨e, he, hkeys, ?_, hlevels _ false Compilation.selfContained_linked⟩
  rw [← hids, Table.keys_mapValues]
  exact hkeys

end Engine

end Provisioning
