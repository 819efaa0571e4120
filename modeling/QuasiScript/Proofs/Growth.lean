import QuasiScript.Proofs.LexicalScope

/-!
# How scope tables grow

All that code does to the table of scopes is to declare legal names in the scope where it stands, and to open a scope
inside that one and go on there. `ScopeTable.Grows` says this of two tables, one before and one after; it holds around
every emission, in every dialect and whether the emission succeeds or not (`growing`, `generate_grows`). What a table
always satisfies is therefore checked for two operations only (`Sound.insert`, `Sound.enter`), and what it keeps follows
from the same induction (`Grows.sound_and_extends`).
-/
namespace QuasiScript

namespace Scope

theorem find?_insertName {d : Declaration} {es : List Declaration} (hnew : ∀ e ∈ es, e.name ≠ d.name) (name : String) :
    (insertName d es).find? (fun e => e.name == name) =
      if d.name = name then some d else es.find? fun e => e.name == name := by
  induction es with
  | nil => by_cases h : d.name = name <;> simp [insertName, h]
  | cons e es ih =>
    obtain ⟨he, hes⟩ := List.forall_mem_cons.1 hnew
    unfold insertName
    by_cases hlt : d.name < e.name
    · rw [if_pos hlt]
      by_cases h : d.name = name <;> simp [h]
    · rw [if_neg hlt]
      by_cases hname : e.name = name
      · have hne : d.name ≠ name := fun h => he (hname.trans h.symm)
        simp [hname, hne]
      · rw [List.find?_cons_of_neg (by simpa using hname), List.find?_cons_of_neg (by simpa using hname), ih hes]

end Scope

namespace ScopeTable
variable {d : Dialect} {t t' : ScopeTable} {id k : Int} {s : Scope} {name : String}

/-! ## Look-ups end -/

theorem WellFormed.exists_lookup (hT : t.WellFormed) (hid : (t.scope? id).isSome) (name : String) :
    ∃ found, t.lookup id name = .ok found := by
  refine hT.outward_induction (P := fun k => ∃ found, t.lookup k name = .ok found) ⟨none, lookup_noScope name⟩
    (fun k s hs ih => ?_) hid
  rw [lookup_eq hT hs]
  cases s.get? name with
  | some x => exact ⟨some x, rfl⟩
  | none => exact ih

/-! ## Sound tables -/

/-- **What every table satisfies**: the global scope lies in none and every other one in an earlier one, and a scope
finds each of its declarations under the declared name, which is legal. -/
structure Sound (d : Dialect) (t : ScopeTable) : Prop where
  root : t.parent? Scope.global = some Scope.noScope
  nested : ∀ id s, t.scope? id = some s → id ≠ Scope.global → (t.scope? s.parent).isSome ∧ s.parent < id
  stored : ∀ id s, t.scope? id = some s → ∀ x ∈ s.names, s.get? x.name = some x ∧ Legal d x.name

theorem sound_initial : initial.Sound d := by
  refine ⟨rfl, fun id s h hne => absurd (scope?_initial h).1 hne, fun id s h x hx => ?_⟩
  rw [(scope?_initial h).2] at hx
  cases hx

theorem Sound.isSome_global (hT : t.Sound d) : (t.scope? Scope.global).isSome := by
  obtain ⟨s, hs, -⟩ := Option.map_eq_some_iff.1 hT.root
  rw [hs]
  rfl

theorem Sound.wellFormed (hT : t.Sound d) : t.WellFormed := by
  intro id s h
  by_cases hid : id = Scope.global
  · left
    have hroot := hT.root
    rw [← hid, parent?, h] at hroot
    exact Option.some.inj hroot
  · exact .inr (hT.nested id s h hid)

theorem Sound.enter (hT : t.Sound d) (hid : (t.scope? id).isSome) : (t.enter id).2.Sound d := by
  refine ⟨?_, fun k s h hk => ?_, fun k s h x hx => ?_⟩
  · obtain ⟨s, hs, hp⟩ := Option.map_eq_some_iff.1 hT.root
    rw [parent?, scope?_enter_of_some hs, Option.map_some, hp]
  · rcases scope?_enter_cases h with h | ⟨rfl, rfl⟩
    · obtain ⟨hp, hlt⟩ := hT.nested k s h hk
      exact ⟨isSome_scope?_enter hp, hlt⟩
    · exact ⟨isSome_scope?_enter hid, (lt_size_of_isSome hid).2⟩
  · rcases scope?_enter_cases h with h | ⟨rfl, rfl⟩
    · exact hT.stored k s h x hx
    · cases hx

theorem Sound.insert {pos : Position} (hT : t.Sound d) (hid : (t.scope? id).isSome) (hname : Legal d name)
    (hnew : t.local? id name = none) : (t.insert id ⟨name, pos⟩).Sound d := by
  have hext := extends_insert hid ⟨name, pos⟩
  refine ⟨?_, fun k s h hk => ?_, fun k s h x hx => ?_⟩
  · obtain ⟨s, hs, hp⟩ := Option.map_eq_some_iff.1 hT.root
    by_cases hglobal : Scope.global = id
    · rw [hglobal] at hs
      rw [hglobal, parent?, scope?_insert_self hs, Option.map_some, hp]
    · rw [parent?, hext.preserved _ s hglobal hs, Option.map_some, hp]
  · rcases scope?_insert_cases hid h with ⟨-, h⟩ | ⟨rfl, s', hs', rfl⟩
    · obtain ⟨hp, hlt⟩ := hT.nested k s h hk
      exact ⟨hext.isSome hp, hlt⟩
    · obtain ⟨hp, hlt⟩ := hT.nested k s' hs' hk
      exact ⟨hext.isSome hp, hlt⟩
  · rcases scope?_insert_cases hid h with ⟨-, h⟩ | ⟨rfl, s', hs', rfl⟩
    · exact hT.stored k s h x hx
    · -- the scope had no such name, so the new declaration hides no other one
      have hother := ne_of_local?_eq_none hs' hnew
      unfold Scope.get?
      rw [Scope.find?_insertName hother]
      rcases Scope.mem_insertName.1 hx with rfl | hx
      · exact ⟨if_pos rfl, hname⟩
      · obtain ⟨hget, hlegal⟩ := hT.stored k s' hs' x hx
        rw [if_neg (Ne.symm (hother x hx))]
        exact ⟨hget, hlegal⟩

/-! ## Growing -/

/-- **What code in a scope does to a table.** -/
inductive Grows (d : Dialect) : Int → ScopeTable → ScopeTable → Prop
  | refl {id : Int} {t : ScopeTable} : Grows d id t t
  | trans {id : Int} {t t' t'' : ScopeTable} : Grows d id t t' → Grows d id t' t'' → Grows d id t t''
  | declare {id : Int} {t : ScopeTable} {name : String} {pos : Position} :
      Legal d name → t.local? id name = none → Grows d id t (t.insert id ⟨name, pos⟩)
  | scope {id : Int} {t t' : ScopeTable} : Grows d t.size (t.enter id).2 t' → Grows d id t t'

theorem Grows.sound_and_extends (h : Grows d id t t') (hT : t.Sound d) (hid : (t.scope? id).isSome) :
    t'.Sound d ∧ t.Extends id t' := by
  induction h with
  | refl => exact ⟨hT, .refl _ _⟩
  | trans _ _ ih ih' =>
    obtain ⟨hT', hext⟩ := ih hT hid
    obtain ⟨hT'', hext'⟩ := ih' hT' (hext.isSome hid)
    exact ⟨hT'', hext.trans hext'⟩
  | declare hname hnew => exact ⟨hT.insert hid hname hnew, extends_insert hid _⟩
  | @scope id t t' _ ih =>
    obtain ⟨hT', hext⟩ := ih (hT.enter hid) (isSome_scope?_enter_size t id)
    exact ⟨hT', hext.of_enter id⟩

end ScopeTable

/-! ## Emissions -/

namespace Emit
open Dialect (standard)
open ScopeTable (Grows)

section Growing
variable {α β : Type} {d : Dialect} {id : Int}

def Growing (d : Dialect) (id : Int) (m : Emit α) : Prop := ∀ T : ScopeTable, Grows d id T (exec m T).2

theorem Growing.bind_of_ok {m : Emit α} {k : α → Emit β} (h : Growing d id m)
    (hk : ∀ a T T', exec m T = (.ok a, T') → Growing d id (k a)) : Growing d id (m >>= k) := by
  intro T
  have hm := h T
  have hk := fun a T' => hk a T T'
  rw [exec_bind]
  generalize exec m T = outcome at hm hk ⊢
  obtain ⟨r, T'⟩ := outcome
  cases r with
  | error e => exact hm
  | ok a => exact hm.trans (hk a T' rfl T')

/-- Only a legal name that the scope does not have yet is put into the table. -/
theorem growing_declare {name : String} (hname : ScopeTable.Legal d name) (t : Token) : Growing d id (do
    match ← modifyGet fun T => T.declare id name t.pos with
    | none => pure ()
    | some p => fail t.pos (.redeclared name p.pos)) := by
  intro T
  rw [exec_modifyGet_bind, ScopeTable.declare]
  cases hnew : T.local? id name with
  | some previous => exact .refl
  | none => exact .declare hname hnew

theorem growing_target (name : String) (t : Token) : Growing d id (do
    if (← get).declares id (baseName name) then pure () else fail t.pos (.undeclared (baseName name))) := by
  intro T
  rw [exec_get_bind]
  split
  · exact .refl
  · exact .refl

/-- Growing is a description part by part, for which the parts make no difference. -/
def growing (d : Dialect) : Partwise d where
  Holds id m _ := Growing d id m
  holds_pure _ _ := .refl
  holds_fail _ _ := .refl
  holds_bind := Growing.bind_of_ok
  holds_value h _ := h
  holds_scope {_ id _ _} _ h T := .scope (h T.size (T.enter id).2)
  holds_declare _ t hname := growing_declare hname t
  holds_target := growing_target
  usual_or_coarse := .inr fun _ _ _ _ _ h => h

theorem generate_grows (T : ScopeTable) (ns : List Node) : Grows d Scope.global T (generate d T ns).2 := by
  rw [generate_eq]
  exact Partwise.nodes_holds (A := growing d) ns .top (.inl rfl) T

end Growing

/-! ## Programs one after the other -/

/-- The table after some programs, each of which may have failed. -/
def tableAfter (d : Dialect) (programs : List (List Node)) : ScopeTable :=
  programs.foldl (fun T ns => (generate d T ns).2) .initial

theorem tableAfter_sound (d : Dialect) (programs : List (List Node)) : (tableAfter d programs).Sound d := by
  suffices h : ∀ T : ScopeTable, T.Sound d → (programs.foldl (fun T ns => (generate d T ns).2) T).Sound d from
    h _ ScopeTable.sound_initial
  induction programs with
  | nil => exact fun T hT => hT
  | cons ns programs ih => exact fun T hT => ih _ ((generate_grows T ns).sound_and_extends hT hT.isSome_global).1

/-- **Scope tables are sound and only grow**, in every dialect and after any programs, accepted or not. The global scope
lies in none and every other scope in an earlier one that exists, so look-ups end and stay in the table. What a scope
holds under a name is its declaration of that name, and the name is legal. One more program keeps every scope's parent
and declarations, and adds names to no earlier scope but the global one. -/
theorem tableAfter_invariant (d : Dialect) (programs : List (List Node)) :
    let T := tableAfter d programs
    T.parent? Scope.global = some Scope.noScope ∧
    (∀ id s, T.scope? id = some s → id ≠ Scope.global → (T.scope? s.parent).isSome ∧ s.parent < id) ∧
    (∀ id name, (T.scope? id).isSome → ∃ found, T.lookup id name = .ok found) ∧
    (∀ id s, T.scope? id = some s → ∀ name x, s.get? name = some x ↔ x ∈ s.names ∧ x.name = name) ∧
    (∀ id s, T.scope? id = some s → ∀ x ∈ s.names, x.name ≠ "" ∧ '.' ∉ x.name.toList ∧ d.isReserved x.name = false) ∧
    ∀ ns id s, T.scope? id = some s → ∃ names, (generate d T ns).2.scope? id = some ⟨s.parent, names⟩ ∧
      s.names ⊆ names ∧ (id ≠ Scope.global → names = s.names) := by
  intro T
  have hT : T.Sound d := tableAfter_sound d programs
  refine ⟨hT.root, hT.nested, fun id name hid => hT.wellFormed.exists_lookup hid name, fun id s hs name x => ?_,
    fun id s hs x hx => ?_, fun ns id s hs => ?_⟩
  · constructor
    · intro hget
      exact ⟨List.mem_of_find?_eq_some hget, by simpa using List.find?_some hget⟩
    · rintro ⟨hx, rfl⟩
      exact (hT.stored id s hs x hx).1
  · obtain ⟨hnonempty, hundotted, hunreserved⟩ := (hT.stored id s hs x hx).2
    exact ⟨hnonempty, hundotted, hunreserved⟩
  · have hext := ((generate_grows T ns).sound_and_extends hT hT.isSome_global).2
    by_cases hid : id = Scope.global
    · rw [hid] at hs ⊢
      obtain ⟨names, hs', hsub⟩ := hext.parent s hs
      exact ⟨names, hs', hsub, fun hne => absurd rfl hne⟩
    · exact ⟨s.names, hext.preserved id s hid hs, List.Subset.refl _, fun _ => rfl⟩

/-- A function that fails at its second parameter leaves its scope behind, and the next program leaves that alone. -/
theorem tableAfter_invariant_rejected :
    let rejected := (Reading.ofText standard "(var a) (fun (x x) x)".toList).nodes
    let next := (Reading.ofText standard "(for i 0 9 (var b i))".toList).nodes
    let T := tableAfter standard [rejected]
    T.scope? 1 = some ⟨Scope.global, [⟨"x", ⟨1, 15⟩⟩]⟩ ∧ (∃ found, T.lookup 1 "a" = .ok found) ∧
      ∃ names, (generate standard T next).2.scope? 1 = some ⟨Scope.global, names⟩ ∧ names = [⟨"x", ⟨1, 15⟩⟩] := by
  have hscope : (tableAfter standard [(Reading.ofText standard "(var a) (fun (x x) x)".toList).nodes]).scope? 1 =
      some ⟨Scope.global, [⟨"x", ⟨1, 15⟩⟩]⟩ := by cbv
  intro rejected next T
  obtain ⟨-, -, hlookup, -, -, hgrows⟩ := tableAfter_invariant standard [rejected]
  obtain ⟨names, hs, -, hnames⟩ := hgrows next 1 _ hscope
  exact ⟨hscope, hlookup 1 "a" (by rw [hscope]; rfl), names, hs, hnames (by decide)⟩

end Emit
end QuasiScript
