/-
Backends that keep resources apart.

Backends are not told the names of resources, but every request of a run is made for one, or
for what it has put aside.  The replies of a run go `RepliesBy` a function if each of them
only depends on what was asked before for the same resource.  Then a talk that is held for a
resource in one run comes to the same as in another one where the same was asked for the
resource before, whatever was asked for others in between.
-/
import Provisioning.Proofs.Run.Talk

namespace Provisioning

/-- The answer to a request, given what was asked before under which name. -/
abbrev Replies :=
  List (String × Call) → (call : Call) → Except String call.request.Answer

namespace Run

/-- What was said about a resource, or about what it has put aside. -/
def about (name : String) (es : List (String × Exchange)) : List (String × Exchange) :=
  es.filter fun e => undeletable e.1 = name

/-- What was asked, without the answers. -/
def asked (es : List (String × Exchange)) : List (String × Call) := es.map fun e => (e.1, e.2.call)

/-- Every answer in the run depends on nothing but what was asked before for the same
resource. -/
def RepliesBy {W : Type} (p : Program) (types : Registry W) (w : W) (reply : String → Replies) :
    Prop :=
  ∀ n before name e after, spoken p types (fresh w) n = before ++ (name, e) :: after →
    e.answer = reply (undeletable name) (asked (about (undeletable name) before)) e.call

theorem about_append (name : String) (es fs : List (String × Exchange)) :
    about name (es ++ fs) = about name es ++ about name fs :=
  List.filter_append ..

/-- What is said under a name is about its resource. -/
theorem about_map (name : String) (es : List Exchange) :
    about (undeletable name) (es.map (name, ·)) = es.map (name, ·) := by
  refine List.filter_eq_self.2 ?_
  intro e he
  obtain ⟨e, -, rfl⟩ := List.mem_map.1 he
  simp

theorem about_map_of_ne {name name' : String} (h : undeletable name ≠ name')
    (es : List Exchange) : about name' (es.map (name, ·)) = [] := by
  refine List.filter_eq_nil_iff.2 ?_
  intro e he
  obtain ⟨e, -, rfl⟩ := List.mem_map.1 he
  simpa using h

/-- A step adds what is said in it under the name that is staged. -/
theorem about_succ {W : Type} {p : Program} {types : Registry W} {r : Run W} {n : Nat}
    {staged : String} (h : stagedName (steps p types n r).memory = staged) (name : String) :
    about name (spoken p types r (n + 1)) = about name (spoken p types r n) ++
      about name ((exchanges p types (steps p types n r)).map (staged, ·)) := by
  rw [spoken, about_append, h]

theorem about_succ_of_silent {W : Type} {p : Program} {types : Registry W} {r : Run W} {n : Nat}
    (h : exchanges p types (steps p types n r) = []) (name : String) :
    about name (spoken p types r (n + 1)) = about name (spoken p types r n) := by
  rw [about_succ rfl, h, List.map_nil]
  exact List.append_nil _

end Run

/-- Everything that is said under a name is answered as foreseen, where `before` is what was
asked before. -/
def Replies.Gives (reply : Replies) (name : String) :
    (before : List (String × Call)) → List Exchange → Prop
  | _, [] => True
  | before, e :: es =>
    e.answer = reply before e.call ∧ reply.Gives name (before ++ [(name, e.call)]) es

/-- **A talk comes to the same, and the same is said, where everything is answered as foreseen
both times.** -/
theorem Talk.hold_eq_of_gives {α W : Type} {types : Registry W} {reply : Replies} {name : String}
    {before : List (String × Call)} (t : Talk α) {w w' : W}
    (h : reply.Gives name before (t.hold types w).said)
    (h' : reply.Gives name before (t.hold types w').said) :
    (t.hold types w').result = (t.hold types w).result ∧
      (t.hold types w').said = (t.hold types w).said := by
  induction t generalizing before w w' with
  | done a => exact ⟨rfl, rfl⟩
  | ask call next ih =>
    simp only [hold] at h h' ⊢
    obtain ⟨hanswer, h⟩ := h
    obtain ⟨hanswer', h'⟩ := h'
    have hsame : (types.answer call w').1 = (types.answer call w).1 := hanswer'.trans hanswer.symm
    rw [hsame] at h' ⊢
    obtain ⟨hresult, hsaid⟩ := ih _ h h'
    exact ⟨hresult, by rw [hsaid]⟩

theorem Run.RepliesBy.gives {W : Type} {p : Program} {types : Registry W} {w : W}
    {reply : String → Replies} (h : RepliesBy p types w reply) (n : Nat) {name : String}
    (hname : stagedName (steps p types n (fresh w)).memory = name) :
    (reply (undeletable name)).Gives name
      (asked (about (undeletable name) (spoken p types (fresh w) n)))
      (exchanges p types (steps p types n (fresh w))) := by
  have hsucc : spoken p types (fresh w) (n + 1) = spoken p types (fresh w) n ++
      (exchanges p types (steps p types n (fresh w))).map (name, ·) := by
    rw [spoken, hname]
  generalize exchanges p types (steps p types n (fresh w)) = es at hsucc ⊢
  generalize spoken p types (fresh w) n = before at hsucc ⊢
  induction es generalizing before with
  | nil => trivial
  | cons e es ih =>
    refine ⟨h (n + 1) before name e (es.map (name, ·)) hsucc, ?_⟩
    have hnext := ih (before ++ [(name, e)]) (by rw [hsucc]; simp)
    rw [about_append, show about (undeletable name) [(name, e)] = [(name, e)] from
      about_map name [e]] at hnext
    simpa [asked] using hnext

theorem Call.answered_inj {call : Call} {a b : Except String call.request.Answer} :
    call.answered a = call.answered b ↔ a = b := by
  simp [answered]

/-- Where what was asked before never changes an answer, replies go by requests alone. -/
theorem Run.repliesBy_of_still {W : Type} {types : Registry W} {w : W}
    (h : ∀ call w', (types.answer call w').1 = (types.answer call w).1) (p : Program) :
    RepliesBy p types w fun _ _ call => (types.answer call w).1 := by
  intro n before name e after hspoken
  have htell := congrArg Prod.fst (tell_spoken p types (fresh w) n)
  rw [hspoken, List.map_append, List.map_append, Registry.tell_append] at htell
  have hlength : (types.tell (before.map fun e => e.2.call) w).1.length =
      (before.map Prod.snd).length := by
    have hcalls := congrArg List.length (types.calls_tell (before.map fun e => e.2.call) w)
    simpa using hcalls
  have hsaid := (List.append_inj htell hlength).2
  rw [List.map_cons, List.map_cons, Registry.tell] at hsaid
  have hanswered := (List.cons.inj hsaid).1
  rw [h e.call] at hanswered
  exact (Call.answered_inj.1 (hanswered : _ = e.call.answered e.answer)).symm

end Provisioning
