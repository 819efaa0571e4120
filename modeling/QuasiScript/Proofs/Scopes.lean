import QuasiScript.Scope
import Mathlib.Data.List.Basic

/-!
# Scopes inside scopes

In a well-formed table every scope lies in an earlier one or in none, which gives an induction outward
(`WellFormed.outward_induction`). So a look-up ends, and it finds a name in the scope itself or from the scope around it
on (`declares_eq`). From this follows what each operation makes visible: a new
scope sees what the scope around it sees (`declares_enter`), a declaration is seen from its scope (`declares_insert`),
and scopes that stay as they are see what they saw (`declares_of_preserved`).
-/
namespace QuasiScript

namespace Scope

theorem mem_insertName {d e : Declaration} {es : List Declaration} : e ∈ insertName d es ↔ e = d ∨ e ∈ es := by
  induction es with
  | nil => simp [insertName]
  | cons x es ih =>
    unfold insertName
    split
    · rw [List.mem_cons]
    · rw [List.mem_cons, List.mem_cons, ih]
      tauto

theorem isSome_get?_iff {s : Scope} {name : String} : (s.get? name).isSome = true ↔ ∃ d ∈ s.names, d.name = name := by
  simp [get?, List.find?_isSome]

end Scope

namespace ScopeTable
variable {t t' : ScopeTable} {id k : Int} {s : Scope}

theorem scope?_eq_some_iff : t.scope? id = some s ↔ 0 ≤ id ∧ t.scopes[id.toNat]? = some s := by
  cases id with
  | ofNat n => simp [scope?]
  | negSucc n => simp [scope?]

theorem lt_size_of_scope? (h : t.scope? id = some s) : 0 ≤ id ∧ id < t.size := by
  obtain ⟨h0, hs⟩ := scope?_eq_some_iff.1 h
  obtain ⟨hlt, -⟩ := List.getElem?_eq_some_iff.1 hs
  unfold size
  omega

theorem lt_size_of_isSome (h : (t.scope? id).isSome) : 0 ≤ id ∧ id < t.size := by
  obtain ⟨s, hs⟩ := Option.isSome_iff_exists.1 h
  exact lt_size_of_scope? hs

/-! ## Well-formed tables -/

def WellFormed (t : ScopeTable) : Prop :=
  ∀ id s, t.scope? id = some s → s.parent = Scope.noScope ∨ ((t.scope? s.parent).isSome ∧ s.parent < id)

theorem scope?_initial (h : initial.scope? id = some s) : id = Scope.global ∧ s = ⟨Scope.noScope, []⟩ := by
  obtain ⟨h0, hlt⟩ := lt_size_of_scope? h
  obtain rfl : id = 0 := by
    have : initial.size = 1 := rfl
    omega
  exact ⟨rfl, (Option.some.inj h).symm⟩

theorem wellFormed_initial : initial.WellFormed := by
  intro id s h
  left
  rw [(scope?_initial h).2]

theorem lookupWithin_noScope (name : String) (fuel : Nat) : t.lookupWithin name fuel Scope.noScope = .ok none := by
  rw [lookupWithin.eq_def]
  rfl

theorem lookupWithin_succ (hne : id ≠ Scope.noScope) (name : String) (fuel : Nat) :
    t.lookupWithin name (fuel + 1) id =
      match t.scope? id with
      | none => .error .noSuchScope
      | some s =>
        match s.get? name with
        | some d => .ok (some d)
        | none => t.lookupWithin name fuel s.parent := by
  rw [lookupWithin.eq_def]
  dsimp only
  rw [if_neg hne]
  cases t.scope? id <;> rfl

theorem WellFormed.parent_lt (hT : t.WellFormed) (h : t.scope? id = some s) :
    Scope.noScope ≤ s.parent ∧ s.parent < id := by
  have hid := lt_size_of_scope? h
  rcases hT id s h with hp | ⟨hp, hlt⟩
  · rw [hp, Scope.noScope]
    omega
  · have hparent := lt_size_of_isSome hp
    rw [Scope.noScope]
    omega

/-- **Induction outward**: what holds outside all scopes, and in a scope if it holds in the one around it, holds in every
scope. -/
theorem WellFormed.outward_induction {P : Int → Prop} (hT : t.WellFormed) (hnone : P Scope.noScope)
    (hscope : ∀ id s, t.scope? id = some s → P s.parent → P id) (hid : (t.scope? id).isSome) : P id := by
  -- scopes lie in earlier ones, so the induction is on a bound of the number
  have hbound : ∀ (n : Nat) (k : Int), k < n → (t.scope? k).isSome → P k := by
    intro n
    induction n with
    | zero =>
      intro k hk hsome
      have := (lt_size_of_isSome hsome).1
      omega
    | succ n ih =>
      intro k hk hsome
      obtain ⟨s, hs⟩ := Option.isSome_iff_exists.1 hsome
      apply hscope k s hs
      rcases hT k s hs with hp | ⟨hp, hlt⟩
      · rw [hp]
        exact hnone
      · exact ih s.parent (by omega) hp
  exact hbound t.size id (lt_size_of_isSome hid).2 hid

/-- A look-up takes no more steps than the number of the scope where it begins. -/
theorem lookupWithin_eq_of_lt (hT : t.WellFormed) (name : String) : ∀ {fuel fuel' : Nat} {id : Int},
    Scope.noScope ≤ id → id < fuel → id < fuel' → t.lookupWithin name fuel id = t.lookupWithin name fuel' id
  | fuel, fuel', id, hid, h, h' => by
    by_cases hno : id = Scope.noScope
    · rw [hno, lookupWithin_noScope, lookupWithin_noScope]
    · unfold Scope.noScope at hid hno
      obtain ⟨fuel, rfl⟩ := Nat.exists_eq_succ_of_ne_zero (show fuel ≠ 0 by omega)
      obtain ⟨fuel', rfl⟩ := Nat.exists_eq_succ_of_ne_zero (show fuel' ≠ 0 by omega)
      rw [Nat.succ_eq_add_one, Nat.succ_eq_add_one, lookupWithin_succ hno, lookupWithin_succ hno]
      cases hs : t.scope? id with
      | none => rfl
      | some s =>
        dsimp only
        cases s.get? name with
        | some d => rfl
        | none =>
          obtain ⟨hp, hlt⟩ := hT.parent_lt hs
          exact lookupWithin_eq_of_lt hT name hp (by omega) (by omega)

/-- **A look-up goes on outward** from a scope that does not have the name. -/
theorem lookup_eq (hT : t.WellFormed) (h : t.scope? id = some s) (name : String) :
    t.lookup id name = (s.get? name).elim (t.lookup s.parent name) fun d => .ok (some d) := by
  have hne : id ≠ Scope.noScope := by
    rintro rfl
    cases h
  have hid := lt_size_of_scope? h
  obtain ⟨hp, hlt⟩ := hT.parent_lt h
  rw [lookup, lookupWithin_succ hne, h]
  dsimp only
  cases s.get? name with
  | some d => rfl
  | none =>
    exact lookupWithin_eq_of_lt hT name hp (show s.parent < (t.size : Int) by omega)
      (show s.parent < ((t.size + 1 : Nat) : Int) by omega)

theorem lookup_noScope (name : String) : t.lookup Scope.noScope name = .ok none :=
  lookupWithin_noScope name _

theorem declares_noScope (name : String) : t.declares Scope.noScope name = false := by
  rw [declares, lookup_noScope]

/-- **A name is seen in the scope itself, or from the scope around it.** -/
theorem declares_eq (hT : t.WellFormed) (h : t.scope? id = some s) (name : String) :
    t.declares id name = ((s.get? name).isSome || t.declares s.parent name) := by
  rw [declares, declares, lookup_eq hT h]
  cases s.get? name <;> rfl

/-- **Scopes that stay as they are see what they saw.** -/
theorem declares_of_preserved (hT : t.WellFormed) (hT' : t'.WellFormed) (name : String) {n : Nat}
    (h : ∀ (k : Int) s, k < n → t.scope? k = some s → t'.scope? k = some s) (hid : (t.scope? id).isSome) :
    id < n → t'.declares id name = t.declares id name := by
  refine hT.outward_induction (P := fun k => k < n → t'.declares k name = t.declares k name) (fun _ => ?_)
    (fun k s hs ih hk => ?_) hid
  · rw [declares_noScope, declares_noScope]
  · have hparent := (hT.parent_lt hs).2
    rw [declares_eq hT hs, declares_eq hT' (h k s hk hs), ih (by omega)]

/-! ## Opening a scope -/

theorem scope?_enter_of_some {parent : Int} (h : t.scope? id = some s) : (t.enter parent).2.scope? id = some s := by
  obtain ⟨h0, hs⟩ := scope?_eq_some_iff.1 h
  obtain ⟨hlt, -⟩ := List.getElem?_eq_some_iff.1 hs
  refine scope?_eq_some_iff.2 ⟨h0, ?_⟩
  rw [enter, List.getElem?_append_left hlt]
  exact hs

theorem isSome_scope?_enter {parent : Int} (h : (t.scope? id).isSome) : ((t.enter parent).2.scope? id).isSome := by
  obtain ⟨s, hs⟩ := Option.isSome_iff_exists.1 h
  rw [scope?_enter_of_some hs]
  rfl

theorem scope?_enter_size (parent : Int) : (t.enter parent).2.scope? t.size = some ⟨parent, []⟩ := by
  refine scope?_eq_some_iff.2 ⟨by omega, ?_⟩
  simp [enter, size]

theorem isSome_scope?_enter_size (t : ScopeTable) (parent : Int) : ((t.enter parent).2.scope? t.size).isSome := by
  rw [scope?_enter_size]
  rfl

theorem scope?_enter_cases {parent : Int} (h : (t.enter parent).2.scope? id = some s) :
    t.scope? id = some s ∨ (id = t.size ∧ s = ⟨parent, []⟩) := by
  obtain ⟨h0, hs⟩ := scope?_eq_some_iff.1 h
  by_cases hlt : id.toNat < t.scopes.length
  · left
    rw [enter, List.getElem?_append_left hlt] at hs
    exact scope?_eq_some_iff.2 ⟨h0, hs⟩
  · right
    have hsize : id < ((t.enter parent).2.size : Int) := (lt_size_of_scope? h).2
    have hid : id = t.size := by
      simp only [enter, size, List.length_append, List.length_singleton] at hsize ⊢
      omega
    rw [hid, scope?_enter_size] at h
    exact ⟨hid, (Option.some.inj h).symm⟩

theorem WellFormed.enter {parent : Int} (hT : t.WellFormed) (hp : (t.scope? parent).isSome) :
    (t.enter parent).2.WellFormed := by
  intro id s h
  rcases scope?_enter_cases h with hs | ⟨rfl, rfl⟩
  · rcases hT id s hs with hnone | ⟨hsome, hlt⟩
    · exact .inl hnone
    · exact .inr ⟨isSome_scope?_enter hsome, hlt⟩
  · exact .inr ⟨isSome_scope?_enter hp, (lt_size_of_isSome hp).2⟩

/-- **A new scope sees what the scope around it sees.** -/
theorem declares_enter {parent : Int} (hT : t.WellFormed) (hp : (t.scope? parent).isSome) (name : String) :
    (t.enter parent).2.declares t.size name = t.declares parent name := by
  rw [declares_eq (hT.enter hp) (scope?_enter_size parent)]
  exact declares_of_preserved hT (hT.enter hp) name (fun k s _ => scope?_enter_of_some) hp (lt_size_of_isSome hp).2

/-! ## Declaring a name -/

theorem scope?_insert_self {d : Declaration} (h : t.scope? id = some s) :
    (t.insert id d).scope? id = some { s with names := Scope.insertName d s.names } := by
  obtain ⟨h0, hs⟩ := scope?_eq_some_iff.1 h
  refine scope?_eq_some_iff.2 ⟨h0, ?_⟩
  simp [insert, hs]

theorem ne_of_local?_eq_none {name : String} (hs : t.scope? id = some s) (h : t.local? id name = none) :
    ∀ e ∈ s.names, e.name ≠ name := by
  intro e he heq
  rw [local?, hs] at h
  exact List.find?_eq_none.1 h e he (by simp [heq])

theorem scope?_insert_of_ne {d : Declaration} (h0 : 0 ≤ id) (hne : k ≠ id) : (t.insert id d).scope? k = t.scope? k := by
  cases k with
  | negSucc n => rfl
  | ofNat n =>
    have : id.toNat ≠ n := by
      intro h
      exact hne (by rw [← h]; exact Int.toNat_of_nonneg h0)
    simp [scope?, insert, this]

/-- One table after another: only a scope may have more names, and there may be more scopes. -/
structure Extends (t : ScopeTable) (id : Int) (t' : ScopeTable) : Prop where
  preserved : ∀ k s, k ≠ id → t.scope? k = some s → t'.scope? k = some s
  parent : ∀ s, t.scope? id = some s → ∃ names, t'.scope? id = some ⟨s.parent, names⟩ ∧ s.names ⊆ names

theorem Extends.refl (t : ScopeTable) (id : Int) : t.Extends id t :=
  ⟨fun _ _ _ h => h, fun s h => ⟨s.names, h, List.Subset.refl _⟩⟩

theorem Extends.trans {t'' : ScopeTable} (h : t.Extends id t') (h' : t'.Extends id t'') : t.Extends id t'' := by
  refine ⟨fun k s hne hs => h'.preserved k s hne (h.preserved k s hne hs), fun s hs => ?_⟩
  obtain ⟨names, hs', hsub⟩ := h.parent s hs
  obtain ⟨names', hs'', hsub'⟩ := h'.parent ⟨s.parent, names⟩ hs'
  exact ⟨names', hs'', List.Subset.trans hsub hsub'⟩

/-- If only a new scope has more names, all earlier ones are as they were. -/
theorem Extends.preserved_enter {parent : Int} (h : (t.enter parent).2.Extends t.size t') (hs : t.scope? k = some s) :
    t'.scope? k = some s := by
  have hk := (lt_size_of_scope? hs).2
  exact h.preserved k s (by omega) (scope?_enter_of_some hs)

theorem Extends.of_enter {parent : Int} (h : (t.enter parent).2.Extends t.size t') (id : Int) : t.Extends id t' :=
  ⟨fun _ _ _ => h.preserved_enter, fun s hs => ⟨s.names, h.preserved_enter hs, List.Subset.refl _⟩⟩

theorem Extends.isSome (h : t.Extends id t') (hk : (t.scope? k).isSome) : (t'.scope? k).isSome := by
  obtain ⟨s, hs⟩ := Option.isSome_iff_exists.1 hk
  by_cases hne : k = id
  · subst hne
    obtain ⟨names, hs', -⟩ := h.parent s hs
    rw [hs']
    rfl
  · rw [h.preserved k s hne hs]
    rfl

theorem Extends.local?_eq_none {name : String} (h : t.Extends id t') (hname : t'.local? id name = none) :
    t.local? id name = none := by
  unfold local? at hname ⊢
  cases hs : t.scope? id with
  | none => rfl
  | some s =>
    obtain ⟨names, hs', hsub⟩ := h.parent s hs
    rw [hs'] at hname
    exact List.find?_eq_none.2 fun x hx => List.find?_eq_none.1 hname x (hsub hx)

theorem extends_insert (h : (t.scope? id).isSome) (d : Declaration) : t.Extends id (t.insert id d) := by
  refine ⟨fun k x hne hx => ?_, fun x hx => ⟨_, scope?_insert_self hx, fun e he => Scope.mem_insertName.2 (.inr he)⟩⟩
  rw [scope?_insert_of_ne (lt_size_of_isSome h).1 hne]
  exact hx

theorem scope?_insert_cases {e : Declaration} (hid : (t.scope? id).isSome) (h : (t.insert id e).scope? k = some s) :
    (k ≠ id ∧ t.scope? k = some s) ∨
      (k = id ∧ ∃ s', t.scope? id = some s' ∧ s = { s' with names := Scope.insertName e s'.names }) := by
  obtain ⟨s', hs'⟩ := Option.isSome_iff_exists.1 hid
  by_cases hk : k = id
  · subst hk
    rw [scope?_insert_self hs'] at h
    exact .inr ⟨rfl, s', hs', (Option.some.inj h).symm⟩
  · rw [scope?_insert_of_ne (lt_size_of_scope? hs').1 hk] at h
    exact .inl ⟨hk, h⟩

theorem WellFormed.insert (hT : t.WellFormed) (h : (t.scope? id).isSome) (d : Declaration) :
    (t.insert id d).WellFormed := by
  have hparent : ∀ k x, t.scope? k = some x → x.parent = Scope.noScope ∨
      (((t.insert id d).scope? x.parent).isSome ∧ x.parent < k) := by
    intro k x hx
    rcases hT k x hx with hnone | ⟨hsome, hlt⟩
    · exact .inl hnone
    · exact .inr ⟨(extends_insert h d).isSome hsome, hlt⟩
  intro k x hx
  rcases scope?_insert_cases h hx with ⟨-, hx⟩ | ⟨rfl, s, hs, rfl⟩
  · exact hparent k x hx
  · exact hparent k s hs

/-- **A declaration is seen from its scope.** -/
theorem declares_insert (hT : t.WellFormed) (h : (t.scope? id).isSome) (d : Declaration) (name : String) :
    (t.insert id d).declares id name = true ↔ t.declares id name = true ∨ d.name = name := by
  obtain ⟨s, hs⟩ := Option.isSome_iff_exists.1 h
  have hparent : (t.insert id d).declares s.parent name = t.declares s.parent name := by
    rcases hT id s hs with hp | ⟨hp, hlt⟩
    · rw [hp, declares_noScope, declares_noScope]
    · have hid := lt_size_of_scope? hs
      refine declares_of_preserved hT (hT.insert h d) name (n := id.toNat) (fun k x hk hx => ?_) hp (by omega)
      rw [scope?_insert_of_ne hid.1 (by omega)]
      exact hx
  rw [declares_eq hT hs, declares_eq (hT.insert h d) (scope?_insert_self hs), hparent, Bool.or_eq_true, Bool.or_eq_true,
    Scope.isSome_get?_iff, Scope.isSome_get?_iff]
  simp only [Scope.mem_insertName, or_and_right, exists_or, exists_eq_left]
  rw [or_assoc, or_comm]

end ScopeTable
end QuasiScript
