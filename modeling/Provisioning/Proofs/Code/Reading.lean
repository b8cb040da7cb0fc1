/-
When reading ends.

A value is read by following references, and an expression likewise; both recursions come from
one, which differs in what it makes of an entry and of what its references gave.  They have no
bound of their own.  The bound in their definitions is one more than the number of entries, and
it is felt only where the recursion would go on for ever.

For a table that was compiled the recursion cannot go on for ever, because a reference leads to
a longer address.  An artifact may come from anywhere, though, and whoever takes it looks at the
form of its entries only: every table is the table of some artifact.  So what can be said is where
a reading ends.  It takes the references of an entry in order and stops at the first fault, so an
address calls for another one only if those before it gave values.  Reading an address ends
exactly if these calls come to no cycle.  In particular it ends where the references come to none,
and where they do come to one there is no value.
-/
import Provisioning.Proofs.Code.Artifact
import Provisioning.Proofs.Plan.Compilation
import Provisioning.Proofs.Readback

namespace Provisioning

/-! ### Cycles that are reached -/

/-- From `a` one comes to something that leads back to itself. -/
def ReachesCycle {α : Type} (R : α → α → Prop) (a : α) : Prop :=
  ∃ b, Relation.ReflTransGen R a b ∧ Relation.TransGen R b b

namespace ReachesCycle

variable {α : Type} {R S : α → α → Prop} {a b : α}

theorem head (hab : R a b) (h : ReachesCycle R b) : ReachesCycle R a := by
  obtain ⟨c, hreach, hcycle⟩ := h
  exact ⟨c, .head hab hreach, hcycle⟩

/-- One step towards the cycle or along it, the cycle is still ahead. -/
theorem next (h : ReachesCycle R a) : ∃ b, R a b ∧ ReachesCycle R b := by
  obtain ⟨c, hreach, hcycle⟩ := h
  rcases Relation.ReflTransGen.cases_head hreach with rfl | ⟨b, hab, hbc⟩
  · obtain ⟨b, hab, hback⟩ := Relation.TransGen.head'_iff.1 hcycle
    exact ⟨b, hab, a, hback, hcycle⟩
  · exact ⟨b, hab, c, hbc, hcycle⟩

theorem mono (h : ∀ a b, R a b → S a b) (hcycle : ReachesCycle R a) : ReachesCycle S a := by
  obtain ⟨c, hreach, hback⟩ := hcycle
  exact ⟨c, Relation.ReflTransGen.mono h _ _ hreach, Relation.TransGen.mono h _ _ hback⟩

/-- Where every step leads to something smaller there is no cycle. -/
theorem not_of_lt (size : α → Nat) (h : ∀ a b, R a b → size b < size a) :
    ¬ ReachesCycle R a := by
  rintro ⟨c, -, hcycle⟩
  have hless : ∀ {b}, Relation.TransGen R c b → size b < size c := by
    intro b hb
    induction hb with
    | single hcb => exact h _ _ hcb
    | tail _ hstep ih => exact Nat.lt_trans (h _ _ hstep) ih
  exact Nat.lt_irrefl _ (hless hcycle)

/-- **A walk that takes more steps than there are places comes to a cycle.**  `P n a` says that
from `a` the walk takes `n` steps more. -/
theorem of_walk {places : List α} {P : Nat → α → Prop}
    (hstep : ∀ n a, P (n + 1) a → a ∈ places ∧ ∃ b, R a b ∧ P n b)
    (h : P (places.length + 1) a) : ReachesCycle R a := by
  -- The places on the way are kept in a list, and all of them lead to where the walk is.
  have hwalk : ∀ (n : Nat) (a : α) (seen : List α), seen.Nodup → seen ⊆ places →
      (∀ s ∈ seen, Relation.TransGen R s a) → places.length < seen.length + n → P n a →
      ReachesCycle R a := by
    intro n
    induction n with
    | zero =>
      intro a seen hnodup hsub _ hmany _
      have hle := (hnodup.subperm hsub).length_le
      omega
    | succ n ih =>
      intro a seen hnodup hsub hlead hmany hP
      obtain ⟨ha, b, hab, hP⟩ := hstep n a hP
      by_cases hseen : a ∈ seen
      · exact ⟨a, .refl, hlead a hseen⟩
      · refine head hab (ih b (a :: seen) (hnodup.cons hseen) (List.cons_subset.2 ⟨ha, hsub⟩) ?_
          (by simp only [List.length_cons]; omega) hP)
        intro s hs
        rcases List.mem_cons.1 hs with rfl | hs
        · exact .single hab
        · exact (hlead s hs).tail hab
  exact hwalk _ a [] .nil (List.nil_subset _) nofun (by simp) h

end ReachesCycle

namespace Rom

/-! ### One recursion for both readings -/

section

variable {α : Type}

/-- What an address comes to if at most `steps` addresses are followed in a row, where `make` says
what an entry comes to with what its references gave. -/
def readWithin (rom : Rom) (make : Entry → List α → Except Fault α) :
    (steps : Nat) → (address : String) → Except Fault α
  | 0, address => .error (.endlessAddress address)
  | steps + 1, address => do
    let e ← rom.get address
    make e (← e.references.mapM (readWithin rom make steps))

theorem readWithin_of_get {rom : Rom} {make : Entry → List α → Except Fault α} {a : String}
    {e : Entry} {steps : Nat} (h : rom.get a = .ok e) :
    rom.readWithin make (steps + 1) a =
      e.references.mapM (rom.readWithin make steps) >>= make e := by
  rw [readWithin, h]
  rfl

section

variable {rom : Rom} {make : Entry → List α → Except Fault α} {a : String} {e : Entry}
  {vs : List α} {f : Fault} {steps : Nat}

theorem readWithin_of_absent (h : rom.get a = .error f) :
    rom.readWithin make (steps + 1) a = .error f := by
  rw [readWithin, h]
  rfl

theorem readWithin_of_fault (h : rom.get a = .ok e)
    (hparts : e.references.mapM (rom.readWithin make steps) = .error f) :
    rom.readWithin make (steps + 1) a = .error f := by
  rw [readWithin_of_get h, hparts]
  rfl

theorem readWithin_of_parts (h : rom.get a = .ok e)
    (hparts : e.references.mapM (rom.readWithin make steps) = .ok vs) :
    rom.readWithin make (steps + 1) a = make e vs := by
  rw [readWithin_of_get h, hparts]
  rfl

/-- A list of readings: the first one, then the others. -/
theorem mapM_readWithin_cons {rest : List String} {x : Except Fault α}
    (h : rom.readWithin make steps a = x) :
    (a :: rest).mapM (rom.readWithin make steps) =
      x >>= fun v => (rest.mapM (rom.readWithin make steps)).map (v :: ·) := by
  rw [List.mapM_cons, h]
  cases x with
  | error f => rfl
  | ok v => cases rest.mapM (rom.readWithin make steps) <;> rfl

end

/-- The value of an entry whose references have these values. -/
def Entry.value (output : OutputRef → Except Fault Json) : Entry → List Json → Except Fault Json
  | .literal v, _ => .ok v
  | .array _, vs => .ok (.arr vs)
  | .hash references, vs => .ok (.obj (references.keys.zip vs))
  | .output o, _ => output o

/-- The expression of an entry whose references have these expressions. -/
def Entry.expr : Entry → List Expr → Except Fault Expr
  | .literal v, _ => .ok (.literal v)
  | .array _, es => .ok (.array es)
  | .hash references, es => .ok (.hash (references.keys.zip es))
  | .output o, _ => .ok (.output o)

/-- Reading the values under names is reading the values and putting the names to them. -/
theorem mapM_named (f : String → Except Fault α) (references : Table String) :
    (references.entries.mapM fun e => do return (e.1, ← f e.2) : Except Fault _) =
      (references.values.mapM f).map (references.keys.zip ·) := by
  have hall : ∀ es : Entries String,
      (es.mapM fun e => do return (e.1, ← f e.2) : Except Fault _) =
        ((es.map Prod.snd).mapM f).map (es.keys.zip ·) := by
    intro es
    induction es with
    | nil => rfl
    | cons e rest ih =>
      rw [List.mapM_cons, ih, List.map_cons, List.mapM_cons]
      cases f e.2 with
      | error g => rfl
      | ok v => cases (rest.map Prod.snd).mapM f <;> rfl
  exact hall references.entries

theorem resolveWithin_eq_readWithin (rom : Rom) (output : OutputRef → Except Fault Json)
    (steps : Nat) (a : String) :
    rom.resolveWithin output steps a = rom.readWithin (Entry.value output) steps a := by
  induction steps generalizing a with
  | zero => rfl
  | succ steps ih =>
    have hsame : rom.resolveWithin output steps = rom.readWithin (Entry.value output) steps :=
      funext ih
    cases hget : rom.get a with
    | error f =>
      rw [resolveWithin, readWithin, hget]
      rfl
    | ok e =>
      rw [resolveWithin_of_get hget, readWithin_of_get hget, hsame]
      cases e with
      | literal v => rfl
      | array references => rfl
      | hash references =>
        simp only [mapM_named]
        rw [Entry.references]
        cases references.values.mapM (rom.readWithin (Entry.value output) steps) <;> rfl
      | output o => rfl

theorem expressionWithin_eq_readWithin (rom : Rom) (steps : Nat) (a : String) :
    rom.expressionWithin steps a = rom.readWithin Entry.expr steps a := by
  induction steps generalizing a with
  | zero => rfl
  | succ steps ih =>
    have hsame : rom.expressionWithin steps = rom.readWithin Entry.expr steps := funext ih
    cases hget : rom.get a with
    | error f =>
      rw [expressionWithin, readWithin, hget]
      rfl
    | ok e =>
      rw [expressionWithin_of_get hget, readWithin_of_get hget, hsame]
      cases e with
      | literal v => rfl
      | array references => rfl
      | hash references =>
        simp only [mapM_named]
        rw [Entry.references]
        cases references.values.mapM (rom.readWithin Entry.expr steps) <;> rfl
      | output o => rfl

/-! ### Reading without a bound -/

/-- Reading addresses one after the other, however deep that leads, ends with this: with what each
of them gave, or with the first fault. -/
inductive Yields (rom : Rom) (make : Entry → List α → Except Fault α) :
    List String → Except Fault (List α) → Prop
  | nil : Yields rom make [] (.ok [])
  /-- Nothing is stored at the first address. -/
  | absent {a : String} {rest : List String} {f : Fault} :
    rom.get a = .error f → Yields rom make (a :: rest) (.error f)
  /-- A reference of the first address ends with a fault. -/
  | part {a : String} {rest : List String} {e : Entry} {f : Fault} :
    rom.get a = .ok e → Yields rom make e.references (.error f) →
    Yields rom make (a :: rest) (.error f)
  /-- The entry itself has none. -/
  | made {a : String} {rest : List String} {e : Entry} {vs : List α} {f : Fault} :
    rom.get a = .ok e → Yields rom make e.references (.ok vs) → make e vs = .error f →
    Yields rom make (a :: rest) (.error f)
  | cons {a : String} {rest : List String} {e : Entry} {vs : List α} {v : α}
    {x : Except Fault (List α)} :
    rom.get a = .ok e → Yields rom make e.references (.ok vs) → make e vs = .ok v →
    Yields rom make rest x → Yields rom make (a :: rest) (x.map (v :: ·))

/-- Reading the address, however deep that leads, ends with this. -/
def Ends (rom : Rom) (make : Entry → List α → Except Fault α) (a : String)
    (x : Except Fault α) : Prop :=
  rom.Yields make [a] (x.map ([·]))

/-- Reading `a` calls for `b`: the references before it give values. -/
def Calls (rom : Rom) (make : Entry → List α → Except Fault α) (a b : String) : Prop :=
  ∃ e before after vs, rom.get a = .ok e ∧ e.references = before ++ b :: after ∧
    rom.Yields make before (.ok vs)

/-- Reading the address goes on for ever. -/
def Spins (rom : Rom) (make : Entry → List α → Except Fault α) (a : String) : Prop :=
  ReachesCycle (rom.Calls make) a

/-- From the address the references come to a cycle. -/
def Circular (rom : Rom) (a : String) : Prop := ReachesCycle rom.Refers a

/-- The fault says that the steps were used up. -/
def Endless (f : Fault) : Prop := ∃ b, f = .endlessAddress b

variable {rom : Rom} {make : Entry → List α → Except Fault α} {a b : String} {steps : Nat}

theorem not_endless_of_get {f : Fault} (h : rom.get a = .error f) : ¬ Endless f := by
  rintro ⟨b, rfl⟩
  unfold get at h
  split at h <;> cases h

theorem Calls.refers (h : rom.Calls make a b) : rom.Refers a b := by
  obtain ⟨e, before, after, -, hget, hsplit, -⟩ := h
  exact ⟨e, Table.get?_eq_some_iff.2 (get_eq_ok_iff.1 hget), by simp [hsplit]⟩

theorem Spins.circular (h : rom.Spins make a) : rom.Circular a :=
  ReachesCycle.mono (fun _ _ => Calls.refers) h

/-- What is read with some number of steps is read without a bound, unless the steps were used
up. -/
theorem yields_of_mapM {l : List String} {x : Except Fault (List α)}
    (h : l.mapM (rom.readWithin make steps) = x) (hx : ∀ f, x = .error f → ¬ Endless f) :
    rom.Yields make l x := by
  -- The references of an address have one step less; the addresses behind it have as many.
  induction steps generalizing l x with
  | zero =>
    cases l with
    | nil =>
      subst h
      exact .nil
    | cons a rest =>
      subst h
      exact absurd ⟨a, rfl⟩ (hx _ rfl)
  | succ steps ih =>
    induction l generalizing x with
    | nil =>
      subst h
      exact .nil
    | cons a rest ihrest =>
      cases hget : rom.get a with
      | error f =>
        rw [mapM_readWithin_cons (readWithin_of_absent hget)] at h
        subst h
        exact .absent hget
      | ok e =>
        cases hparts : e.references.mapM (rom.readWithin make steps) with
        | error f =>
          rw [mapM_readWithin_cons (readWithin_of_fault hget hparts)] at h
          subst h
          exact .part hget (ih hparts hx)
        | ok vs =>
          have hyields := ih hparts nofun
          have hread : rom.readWithin make (steps + 1) a = make e vs :=
            readWithin_of_parts hget hparts
          cases hmake : make e vs with
          | error f =>
            rw [mapM_readWithin_cons (hread.trans hmake)] at h
            subst h
            exact .made hget hyields hmake
          | ok v =>
            rw [mapM_readWithin_cons (hread.trans hmake)] at h
            subst h
            refine .cons hget hyields hmake (ihrest rfl fun f hf => hx f ?_)
            rw [hf]
            rfl

theorem Yields.within {l : List String} {x : Except Fault (List α)} (h : rom.Yields make l x) :
    ∃ enough, ∀ steps, enough ≤ steps → l.mapM (rom.readWithin make steps) = x := by
  have hpos {n steps : Nat} (h : n + 1 ≤ steps) : ∃ m, steps = m + 1 ∧ n ≤ m :=
    ⟨steps - 1, by omega, by omega⟩
  induction h with
  | nil => exact ⟨0, fun _ _ => rfl⟩
  | absent hget =>
    refine ⟨1, fun steps hsteps => ?_⟩
    obtain ⟨m, rfl, -⟩ := hpos hsteps
    exact mapM_readWithin_cons (readWithin_of_absent hget)
  | part hget _ ih =>
    obtain ⟨enough, ih⟩ := ih
    refine ⟨enough + 1, fun steps hsteps => ?_⟩
    obtain ⟨m, rfl, hm⟩ := hpos hsteps
    exact mapM_readWithin_cons (readWithin_of_fault hget (ih m hm))
  | made hget _ hmake ih =>
    obtain ⟨enough, ih⟩ := ih
    refine ⟨enough + 1, fun steps hsteps => ?_⟩
    obtain ⟨m, rfl, hm⟩ := hpos hsteps
    exact mapM_readWithin_cons ((readWithin_of_parts hget (ih m hm)).trans hmake)
  | cons hget _ hmake _ ih ihrest =>
    obtain ⟨enough, ih⟩ := ih
    obtain ⟨enough', ihrest⟩ := ihrest
    refine ⟨max enough enough' + 1, fun steps hsteps => ?_⟩
    obtain ⟨m, rfl, hm⟩ := hpos hsteps
    have hread := (readWithin_of_parts hget (ih m (by omega))).trans hmake
    rw [mapM_readWithin_cons hread, ihrest (m + 1) (by omega)]
    rfl

theorem Yields.unique {l : List String} {x y : Except Fault (List α)}
    (hx : rom.Yields make l x) (hy : rom.Yields make l y) : x = y := by
  obtain ⟨n, hn⟩ := hx.within
  obtain ⟨m, hm⟩ := hy.within
  rw [← hn (max n m) (by omega), ← hm (max n m) (by omega)]

/-! ### Where the steps are used up -/

/-- What is made of an entry never says that the steps were used up. -/
def Bounded (make : Entry → List α → Except Fault α) : Prop :=
  ∀ e vs f, make e vs = .error f → ¬ Endless f

/-- A reading that ends does not end because steps were used up. -/
theorem Yields.not_endless (hmake : Bounded make) {l : List String} {x : Except Fault (List α)}
    (h : rom.Yields make l x) {f : Fault} (hf : x = .error f) : ¬ Endless f := by
  induction h with
  | nil => cases hf
  | absent hget =>
    cases hf
    exact not_endless_of_get hget
  | part _ _ ih => exact ih hf
  | made _ _ hmade =>
    cases hf
    exact hmake _ _ _ hmade
  | @cons _ _ _ _ _ x _ _ _ _ _ ih =>
    cases x with
    | error g => exact ih hf
    | ok vs => cases hf

/-- The steps are used up. -/
def RunsOut (rom : Rom) (make : Entry → List α → Except Fault α) (steps : Nat) (a : String) :
    Prop :=
  ∃ f, rom.readWithin make steps a = .error f ∧ Endless f

/-- **Steps are used up along a call.** -/
theorem runsOut_succ (hmake : Bounded make) :
    rom.RunsOut make (steps + 1) a ↔ ∃ b, rom.Calls make a b ∧ rom.RunsOut make steps b := by
  constructor
  · rintro ⟨f, hread, hf⟩
    cases hget : rom.get a with
    | error g =>
      rw [readWithin_of_absent hget] at hread
      cases hread
      exact absurd hf (not_endless_of_get hget)
    | ok e =>
      rw [readWithin_of_get hget] at hread
      rcases bind_eq_error.1 hread with hparts | ⟨vs, -, hmade⟩
      · obtain ⟨before, b, after, hsplit, hbefore, hb⟩ := mapM_eq_error_iff.1 hparts
        obtain ⟨vs, hvs⟩ := exists_mapM hbefore
        exact ⟨b, ⟨e, before, after, vs, hget, hsplit, yields_of_mapM hvs nofun⟩, f, hb, hf⟩
      · exact absurd hf (hmake e vs f hmade)
  · rintro ⟨b, ⟨e, before, after, vs, hget, hsplit, hyields⟩, f, hb, hf⟩
    -- With these steps the references before `b` have values, or one of them uses up the steps.
    cases hbefore : before.mapM (rom.readWithin make steps) with
    | ok vs =>
      have hparts : e.references.mapM (rom.readWithin make steps) = .error f := by
        rw [hsplit, List.mapM_append, hbefore, List.mapM_cons, hb]
        rfl
      exact ⟨f, readWithin_of_fault hget hparts, hf⟩
    | error g =>
      have hparts : e.references.mapM (rom.readWithin make steps) = .error g := by
        rw [hsplit, List.mapM_append, hbefore]
        rfl
      refine ⟨g, readWithin_of_fault hget hparts, ?_⟩
      by_contra hg
      have hfault := yields_of_mapM hbefore fun _ h => Except.error.inj h ▸ hg
      cases hyields.unique hfault

theorem Spins.runsOut (hmake : Bounded make) (h : rom.Spins make a) :
    rom.RunsOut make steps a := by
  induction steps generalizing a with
  | zero => exact ⟨_, rfl, a, rfl⟩
  | succ steps ih =>
    obtain ⟨b, hcalls, hb⟩ := ReachesCycle.next h
    exact (runsOut_succ hmake).2 ⟨b, hcalls, ih hb⟩

/-- One step more than there are entries is used up only by a reading that goes on for ever. -/
theorem spins_of_runsOut (hmake : Bounded make) (h : rom.RunsOut make (rom.size + 1) a) :
    rom.Spins make a := by
  have hlength : rom.entries.keys.length = rom.size := List.length_map _
  rw [← hlength] at h
  refine ReachesCycle.of_walk (fun n a hruns => ?_) h
  obtain ⟨b, hcalls, hb⟩ := (runsOut_succ hmake).1 hruns
  have ⟨_, _, _, _, hget, _⟩ := hcalls
  exact ⟨mem_keys_of_get hget, b, hcalls, hb⟩

/-! ### Where a reading ends -/

/-- What can be said of a reading, whatever the table. -/
structure Settled (rom : Rom) (make : Entry → List α → Except Fault α)
    (read : String → Except Fault α) : Prop where
  /-- What is read is what reading without a bound ends with, unless the steps were used up. -/
  agrees : ∀ a x, rom.Ends make a x ↔ read a = x ∧ ∀ f, x = .error f → ¬ Endless f
  /-- Reading ends exactly where its calls come to no cycle. -/
  ends : ∀ a, (∃ x, rom.Ends make a x) ↔ ¬ rom.Spins make a
  /-- So it ends where the references come to none. -/
  acyclic : ∀ a, ¬ rom.Circular a → ∃ x, rom.Ends make a x
  /-- Where they do come to one, it does not end with a value. -/
  cyclic : ∀ a, rom.Circular a → ∀ v, ¬ rom.Ends make a (.ok v)

theorem ends_of_readWithin {x : Except Fault α} (h : rom.readWithin make steps a = x)
    (hx : ∀ f, x = .error f → ¬ Endless f) : rom.Ends make a x := by
  have hall : [a].mapM (rom.readWithin make steps) = x.map ([·]) := by
    rw [mapM_readWithin_cons h]
    cases x <;> rfl
  refine yields_of_mapM hall fun f hf => hx f ?_
  cases x with
  | error g =>
    cases hf
    rfl
  | ok v => cases hf

theorem Ends.within {x : Except Fault α} (h : rom.Ends make a x) :
    ∃ enough, ∀ steps, enough ≤ steps → rom.readWithin make steps a = x := by
  obtain ⟨enough, henough⟩ := Yields.within h
  refine ⟨enough, fun steps hsteps => ?_⟩
  have hall := henough steps hsteps
  rw [mapM_readWithin_cons rfl] at hall
  cases hread : rom.readWithin make steps a <;> cases x <;> rw [hread] at hall <;> cases hall <;> rfl

theorem Ends.unique {x y : Except Fault α} (hx : rom.Ends make a x) (hy : rom.Ends make a y) :
    x = y := by
  obtain ⟨n, hn⟩ := hx.within
  obtain ⟨m, hm⟩ := hy.within
  rw [← hn (max n m) (by omega), ← hm (max n m) (by omega)]

/-- A value is read only where the references come to no cycle. -/
theorem not_circular_of_readWithin {v : α} (h : rom.readWithin make steps a = .ok v) :
    ¬ rom.Circular a := by
  induction steps generalizing a v with
  | zero => cases h
  | succ steps ih =>
    intro hcircular
    obtain ⟨b, ⟨e, hstored, hb⟩, hnext⟩ := ReachesCycle.next hcircular
    rw [readWithin_of_get (get_eq_ok_iff.2 (Table.get?_eq_some_iff.1 hstored))] at h
    obtain ⟨vs, hparts, -⟩ := bind_eq_ok.1 h
    obtain ⟨w, -, hw⟩ := ok_of_mapM hparts hb
    exact ih hw hnext

/-- **A reading is settled,** as long as what it makes of an entry never says that the steps were
used up. -/
theorem settled (rom : Rom) (hmake : Bounded make) :
    rom.Settled make (rom.readWithin make (rom.size + 1)) := by
  have hends (a : String) (hspins : ¬ rom.Spins make a) :
      rom.Ends make a (rom.readWithin make (rom.size + 1) a) :=
    ends_of_readWithin rfl fun f hf hendless =>
      hspins (spins_of_runsOut hmake ⟨f, hf, hendless⟩)
  have hnever {a : String} {x : Except Fault α} (hx : rom.Ends make a x) : ¬ rom.Spins make a := by
    intro hspins
    obtain ⟨enough, henough⟩ := hx.within
    obtain ⟨f, hread, hf⟩ : rom.RunsOut make enough a := hspins.runsOut hmake
    obtain rfl := (henough enough (Nat.le_refl _)).symm.trans hread
    exact Yields.not_endless hmake hx rfl hf
  exact {
    agrees := by
      intro a x
      constructor
      · intro hx
        have hread := (hends a (hnever hx)).unique hx
        refine ⟨hread, fun f hf hendless => hnever hx ?_⟩
        exact spins_of_runsOut hmake ⟨f, hread.trans hf, hendless⟩
      · rintro ⟨hread, hx⟩
        exact ends_of_readWithin hread hx
    ends := fun a => ⟨fun ⟨_, hx⟩ => hnever hx, fun hspins => ⟨_, hends a hspins⟩⟩
    acyclic := fun a hfree => ⟨_, hends a fun hspins => hfree hspins.circular⟩
    cyclic := by
      intro a hcircular v hv
      obtain ⟨enough, henough⟩ := hv.within
      exact not_circular_of_readWithin (henough enough (Nat.le_refl _)) hcircular }

end

/-! ### The two readings -/

theorem bounded_value (m : Memory) : Bounded (Entry.value m.outputValue) := by
  intro e vs f h
  cases e with
  | output o =>
    obtain ⟨-, rfl⟩ := Memory.outputValue_eq_error_iff.1 h
    rintro ⟨b, hb⟩
    cases hb
  | literal _ | array _ | hash _ => cases h

theorem bounded_expr : Bounded Entry.expr := by
  intro e vs f h
  cases e <;> cases h

theorem settled_resolve (rom : Rom) (m : Memory) :
    rom.Settled (Entry.value m.outputValue) (rom.resolve m.outputValue) := by
  have hsame : rom.resolve m.outputValue =
      rom.readWithin (Entry.value m.outputValue) (rom.size + 1) :=
    funext fun a => resolveWithin_eq_readWithin rom _ _ a
  rw [hsame]
  exact settled rom (bounded_value m)

theorem settled_expression (rom : Rom) : rom.Settled Entry.expr rom.expression := by
  have hsame : rom.expression = rom.readWithin Entry.expr (rom.size + 1) :=
    funext fun a => expressionWithin_eq_readWithin rom _ a
  rw [hsame]
  exact settled rom bounded_expr

theorem Closed.not_circular {rom : Rom} (h : Closed rom.entries.entries) (a : String) :
    ¬ rom.Circular a := by
  refine ReachesCycle.not_of_lt rom.room ?_
  rintro b c ⟨e, hstored, hc⟩
  obtain ⟨-, hlt⟩ := h _ (Table.get?_eq_some_iff.1 hstored) c hc
  exact room_lt (Table.mem_keys_of_get? hstored) hlt

end Rom

/-! ### The tables of artifacts -/

namespace Program

/-- Whoever takes artifacts takes every table. -/
theorem exists_ofArtifact_rom (rom : Rom) :
    ∃ artifact p, ofArtifact artifact = .ok p ∧ p.tables.rom = rom := by
  let p : Program := ⟨{ InitialTables.empty with rom }, []⟩
  have hwords : p.WordSized := ⟨nofun, nofun⟩
  exact ⟨p.toArtifact, p, ofArtifact_toArtifact_iff.2 hwords, rfl⟩

/-- **Where the readings of an accepted artifact end.**  Artifacts are accepted with any table,
whatever its references lead to.  Both readings of an accepted table end exactly where their
calls come to no cycle, and for the table of a compiled plan that is everywhere. -/
theorem readings_end :
    (∀ rom : Rom, ∃ artifact p, ofArtifact artifact = .ok p ∧ p.tables.rom = rom) ∧
    (∀ artifact p, ofArtifact artifact = .ok p →
      p.tables.rom.Settled Rom.Entry.expr p.tables.rom.expression ∧
      ∀ m : Memory, p.tables.rom.Settled (Rom.Entry.value m.outputValue)
        (p.tables.rom.resolve m.outputValue)) ∧
    ∀ (plan : Plan) p, plan.compile = .ok p → ∀ a, ¬ p.tables.rom.Circular a ∧
      (∃ x, p.tables.rom.Ends Rom.Entry.expr a x) ∧
      ∀ m : Memory, ∃ x, p.tables.rom.Ends (Rom.Entry.value m.outputValue) a x := by
  refine ⟨exists_ofArtifact_rom, ?_, ?_⟩
  · intro _ p _
    exact ⟨p.tables.rom.settled_expression, p.tables.rom.settled_resolve⟩
  · intro plan p hp a
    obtain ⟨c, rfl⟩ := Compilation.compile_eq_ok.1 hp
    have hfree : ¬ c.rom.Circular a := (Plan.closed_rom c.rom_eq).not_circular a
    exact ⟨hfree, c.rom.settled_expression.acyclic a hfree,
      fun m => (c.rom.settled_resolve m).acyclic a hfree⟩

end Program

/-- The artifact with only this table. -/
def tableArtifact (entries : Properties) : Json := .obj [("init", .obj [("rom", .obj entries)])]

/-- An entry that refers to these addresses, as an artifact has it. -/
def arrayOf (references : List String) : Json :=
  .obj [("type", .str "array"), ("references", .strs references)]

namespace Program

/-- Beside an address that refers to itself there are one that leads to a literal, and one that
leads to that cycle but to a missing address first. -/
def besideCycle : Json :=
  tableArtifact [("loop", arrayOf ["loop"]), ("list", arrayOf ["text"]),
    ("text", .obj [("type", .str "literal"), ("value", .str "new")]),
    ("gone", arrayOf ["missing", "loop"])]

/-- There the expressions beside the cycle are read, and the fault in front of it is reported. -/
theorem readings_end_beside_cycle :
    (∃ p, ofArtifact besideCycle = .ok p ∧
      p.tables.rom.Ends Rom.Entry.expr "list" (.ok (.array [.literal (.str "new")])) ∧
      p.tables.rom.Circular "gone" ∧
      p.tables.rom.Ends Rom.Entry.expr "gone" (.error (.noSuchAddress "missing"))) ∧
    ∃ p, (plainPlan true ["x", "y"] ["y", "z"] true).compile = .ok p ∧
      ∃ x, p.tables.rom.Ends Rom.Entry.expr "y" x := by
  obtain ⟨-, hends, hcompiled⟩ := readings_end
  constructor
  · obtain ⟨p, hp, hlist, hgone, hloop, hlead⟩ : ∃ p, ofArtifact besideCycle = .ok p ∧
        p.tables.rom.expression "list" = .ok (.array [.literal (.str "new")]) ∧
        p.tables.rom.expression "gone" = .error (.noSuchAddress "missing") ∧
        p.tables.rom.Refers "loop" "loop" ∧ p.tables.rom.Refers "gone" "loop" :=
      ⟨_, rfl, rfl, rfl, ⟨_, rfl, by decide⟩, ⟨_, rfl, by decide⟩⟩
    obtain ⟨hexpr, -⟩ := hends besideCycle p hp
    refine ⟨p, hp, (hexpr.agrees _ _).2 ⟨hlist, nofun⟩,
      ⟨"loop", .single hlead, .single hloop⟩, (hexpr.agrees _ _).2 ⟨hgone, ?_⟩⟩
    rintro _ ⟨⟩ ⟨b, hb⟩
    cases hb
  · obtain ⟨p, hp⟩ : ∃ p, (plainPlan true ["x", "y"] ["y", "z"] true).compile = .ok p := ⟨_, rfl⟩
    exact ⟨p, hp, (hcompiled _ p hp "y").2.1⟩

/-- An artifact is accepted although its one entry refers to itself, and reading that address
never ends. -/
theorem accepts_cycle :
    ∃ p, ofArtifact (tableArtifact [("a", arrayOf ["a"])]) = .ok p ∧
      Relation.TransGen p.tables.rom.Refers "a" "a" ∧
      (∀ x, ¬ p.tables.rom.Ends Rom.Entry.expr "a" x) ∧
      ∀ (m : Memory) x, ¬ p.tables.rom.Ends (Rom.Entry.value m.outputValue) "a" x := by
  obtain ⟨p, hp, hget⟩ : ∃ p, ofArtifact (tableArtifact [("a", arrayOf ["a"])]) = .ok p ∧
      p.tables.rom.get "a" = .ok (.array ["a"]) := ⟨_, rfl, rfl⟩
  have hrefers : p.tables.rom.Refers "a" "a" :=
    ⟨_, Table.get?_eq_some_iff.2 (Rom.get_eq_ok_iff.1 hget), List.mem_singleton.2 rfl⟩
  have hspins {α : Type} (make : Rom.Entry → List α → Except Fault α) :
      p.tables.rom.Spins make "a" :=
    ⟨"a", .refl, .single ⟨_, [], [], [], hget, rfl, .nil⟩⟩
  refine ⟨p, hp, .single hrefers, fun x hx => ?_, fun m x hx => ?_⟩
  · exact (p.tables.rom.settled_expression.ends "a").1 ⟨x, hx⟩ (hspins _)
  · exact ((p.tables.rom.settled_resolve m).ends "a").1 ⟨x, hx⟩ (hspins _)

end Program

end Provisioning
