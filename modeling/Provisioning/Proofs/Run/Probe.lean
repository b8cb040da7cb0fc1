/-
Probes that are of no consequence.

A probe asks whether an object is there.  Providers `Confirms` in a world if from there on
every probe finds its object, and whatever is asked otherwise is answered as if nothing had
been probed before.  That is said of the answers alone; what else becomes of the world is left
open, so a provider may well count its probes.

Two lists of requests that differ in probes only are then answered alike, and so a talk that is
held after the one comes to the same as after the other.
-/
import Provisioning.Proofs.Run.Talk

namespace Provisioning

/-- Whether a request asks if the object is there. -/
def Request.probes : Request → Bool
  | .found => true
  | _ => false

namespace Registry

variable {W : Type} {types : Registry W} {w : W}

/-- Somebody provides the objects of the type. -/
def Provides (types : Registry W) (typeId : String) : Prop :=
  ∃ kind p, types.get? typeId = some kind ∧ kind.provider = some p

/-- From a world on, every object that is probed is there, and whatever is asked otherwise is
answered as if nothing had been probed. -/
structure Confirms (types : Registry W) (w : W) : Prop where
  there : ∀ calls : List Call, (∀ call ∈ calls, types.Provides call.typeId) →
    ∀ typeId id answer, (⟨typeId, id, .found, answer⟩ : Exchange) ∈ (types.tell calls w).1 →
      answer = .ok true
  aloof : ∀ calls : List Call, (∀ call ∈ calls, types.Provides call.typeId) →
    ((types.tell calls w).1.filter fun e => !e.request.probes) =
      (types.tell (calls.filter fun call => !call.request.probes) w).1

theorem tell_concat (types : Registry W) (calls : List Call) (call : Call) (w : W) :
    types.tell (calls ++ [call]) w =
      ((types.tell calls w).1 ++ [call.answered (types.answer call (types.tell calls w).2).1],
        (types.answer call (types.tell calls w).2).2) := by
  rw [tell_append]
  rfl

theorem answer_of_not_provides {call : Call} (h : ¬ types.Provides call.typeId) (w : W) :
    types.answer call w = (.error "", w) := by
  have hnone : (types.get? call.typeId).bind Kind.provider = none := by
    cases hkind : types.get? call.typeId with
    | none => rfl
    | some kind =>
      cases hp : kind.provider with
      | none => exact hp
      | some p => exact absurd ⟨kind, p, hkind, hp⟩ h
  rw [answer, hnone]

/-- Two lists of requests that differ in probes only. -/
structure SameButProbes (types : Registry W) (calls calls' : List Call) : Prop where
  provided : ∀ call ∈ calls, types.Provides call.typeId
  provided' : ∀ call ∈ calls', types.Provides call.typeId
  same : (calls.filter fun call => !call.request.probes) =
    calls'.filter fun call => !call.request.probes

section

variable {calls calls' : List Call} {call : Call}

theorem SameButProbes.symm (h : types.SameButProbes calls calls') :
    types.SameButProbes calls' calls :=
  ⟨h.provided', h.provided, h.same.symm⟩

theorem SameButProbes.concat (h : types.SameButProbes calls calls') (call : Call)
    (hcall : types.Provides call.typeId) :
    types.SameButProbes (calls ++ [call]) (calls' ++ [call]) where
  provided c hc := by
    rcases List.mem_append.1 hc with hc | hc
    · exact h.provided c hc
    · rw [List.mem_singleton.1 hc]
      exact hcall
  provided' c hc := by
    rcases List.mem_append.1 hc with hc | hc
    · exact h.provided' c hc
    · rw [List.mem_singleton.1 hc]
      exact hcall
  same := by rw [List.filter_append, List.filter_append, h.same]

theorem Confirms.found (h : types.Confirms w) (hsame : types.SameButProbes calls calls')
    {typeId : String} {id : Option Json} (htype : types.Provides typeId) :
    (types.answer ⟨typeId, id, .found⟩ (types.tell calls w).2).1 = .ok true := by
  refine h.there _ (hsame.concat ⟨typeId, id, .found⟩ htype).provided typeId id _ ?_
  rw [tell_concat]
  exact List.mem_append_right _ List.mem_cons_self

/-- Where only probes make a difference, the same is answered. -/
theorem Confirms.answer_eq (h : types.Confirms w) (hsame : types.SameButProbes calls calls')
    (hcall : types.Provides call.typeId) :
    (types.answer call (types.tell calls w).2).1 =
      (types.answer call (types.tell calls' w).2).1 := by
  by_cases hprobe : call.request.probes = true
  · obtain ⟨typeId, id, request⟩ := call
    cases request with
    | found => rw [h.found hsame hcall, h.found hsame.symm hcall]
    | _ => cases hprobe
  · have hlast : ∀ {calls calls' : List Call}, types.SameButProbes calls calls' →
        ((types.tell calls w).1.filter fun e => !e.request.probes) ++
            [call.answered (types.answer call (types.tell calls w).2).1] =
          (types.tell ((calls.filter fun c => !c.request.probes) ++ [call]) w).1 := by
      intro calls calls' hsame
      have haloof := h.aloof (calls ++ [call]) (hsame.concat call hcall).provided
      rw [tell_concat, List.filter_append, List.filter_append] at haloof
      have hexchange : ∀ a, ([call.answered a].filter fun e => !e.request.probes) =
          [call.answered a] := by
        intro a
        simp [Call.answered, hprobe]
      have hrequest : ([call].filter fun c => !c.request.probes) = [call] := by simp [hprobe]
      rw [hexchange, hrequest] at haloof
      exact haloof
    have hboth := hlast hsame.symm
    rw [← hsame.same, ← hlast hsame] at hboth
    simpa [Call.answered] using (List.append_inj' hboth rfl).2.symm

/-- Providers that find every object, and nothing changes when they look, confirm. -/
theorem confirms_of_still
    (h : ∀ typeId kind p, types.get? typeId = some kind → kind.provider = some p →
      ∀ id w, p.ask id .found w = (.ok true, w)) (w : W) : types.Confirms w := by
  have hfound : ∀ {typeId : String}, types.Provides typeId → ∀ id w,
      types.answer ⟨typeId, id, .found⟩ w = (.ok true, w) := by
    rintro typeId ⟨kind, p, hkind, hp⟩ id w
    rw [answer, hkind, Option.bind_some, hp]
    exact h typeId kind p hkind hp id w
  constructor
  · intro calls
    induction calls generalizing w with
    | nil =>
      intro _ typeId id answer he
      cases he
    | cons call rest ih =>
      intro hprovides typeId id answer he
      rcases List.mem_cons.1 he with heq | he
      · obtain ⟨callType, callId, request⟩ := call
        cases heq
        exact congrArg Prod.fst (hfound (hprovides _ List.mem_cons_self) _ w)
      · exact ih _ (fun call hcall => hprovides call (List.mem_cons_of_mem _ hcall)) typeId id
          answer he
  · intro calls
    induction calls generalizing w with
    | nil => exact fun _ => rfl
    | cons call rest ih =>
      intro hprovides
      have hrest := ih (types.answer call w).2
        fun call hcall => hprovides call (List.mem_cons_of_mem _ hcall)
      have hhead := hprovides call List.mem_cons_self
      obtain ⟨typeId, id, request⟩ := call
      cases request with
      | found =>
        rw [hfound hhead] at hrest
        simpa [tell, Call.answered, Request.probes, hfound hhead] using hrest
      | _ => simpa [tell, Call.answered, Request.probes] using hrest

/-- **Where only probes make a difference, a talk comes to the same, and the same is said.** -/
theorem Confirms.hold_eq (h : types.Confirms w) {α : Type} (t : Talk α)
    (hsame : types.SameButProbes calls calls') :
    (t.hold types (types.tell calls w).2).result =
        (t.hold types (types.tell calls' w).2).result ∧
      (t.hold types (types.tell calls w).2).said =
        (t.hold types (types.tell calls' w).2).said := by
  induction t generalizing calls calls' with
  | done a => exact ⟨rfl, rfl⟩
  | ask call next ih =>
    by_cases hcall : types.Provides call.typeId
    · have hrest := ih (types.answer call (types.tell calls w).2).1 (hsame.concat call hcall)
      rw [tell_concat, tell_concat] at hrest
      simp only [Talk.hold, ← h.answer_eq hsame hcall]
      exact ⟨hrest.1, congrArg _ hrest.2⟩
    · have hrest := ih (.error "") hsame
      simp only [Talk.hold, answer_of_not_provides hcall]
      exact ⟨hrest.1, congrArg _ hrest.2⟩

end

end Registry

/-- Where what is probed is there, nothing comes of it. -/
theorem Staged.hold_talkCheckExist {W : Type} {types : Registry W} {s : Staged W} {m : Memory}
    {w : W} {q : Provider W} (hprovider : s.provider = .ok q)
    (hfound : (types.answer ⟨s.typeId, m.remoteId s.name, .found⟩ w).1 = .ok true) :
    ∃ said w', (∀ e ∈ said, e.request.probes = true) ∧
      (s.talkCheckExist m).hold types w = ⟨⟨.ok .next, [testWrite true]⟩, said, w'⟩ := by
  unfold talkCheckExist
  split
  · simp only [Talk.need, hprovider, request, Talk.hold, hfound]
    refine ⟨_, _, ?_, rfl⟩
    intro e he
    rw [List.mem_singleton.1 he]
    rfl
  · refine ⟨[], w, ?_, rfl⟩
    intro e he
    cases he

end Provisioning
