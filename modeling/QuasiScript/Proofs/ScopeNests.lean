import QuasiScript.Proofs.Incremental
import QuasiScript.Proofs.Partwise
import QuasiScript.Proofs.Scopes
import Mathlib.Logic.Relation

/-!
# The scope table of a program

An accepted program opens one scope for each function and each loop that it evaluates, in the order in which they stand
there (`Opens`). The table has these scopes in this order: each lies in the scope of the nearest function or loop around
it, and has the names that are bound in it outside all inner scopes (`Nested`).

In the target only functions have scopes of their own. So a name that is bound in a loop and also around it, with nothing
but loops between, is two variables in the table and one in the target. `generate_separated_iff` says that the table keeps
the two apart by a function in all other cases.
-/
namespace QuasiScript
open Dialect (standard)

namespace Binding

/-- **The scopes that parts of a program open**, one after the other, each with those around it, the nearest first. -/
inductive Opens (d : Dialect) : List Node → List Part → List (List Node) → Prop where
  | nil {around : List Node} : Opens d around [] []
  | name {around : List Node} {role : Role} {n : Node} {ps : List Part} {nests : List (List Node)} : role ≠ .value →
      Opens d around ps nests → Opens d around ((role, n) :: ps) nests
  | value {around : List Node} {n : Node} {ps : List Part} {inner nests : List (List Node)} :
      Opens d (scope d n ++ around) (parts d n) inner → Opens d around ps nests →
      Opens d around ((.value, n) :: ps) ((scope d n).map (· :: around) ++ inner ++ nests)

section Opens
variable {d : Dialect} {around : List Node} {ps ps' : List Part} {nests nests' : List (List Node)}

theorem Opens.append (h : Opens d around ps nests) (h' : Opens d around ps' nests') :
    Opens d around (ps ++ ps') (nests ++ nests') := by
  induction h with
  | nil => exact h'
  | name hrole _ ih => exact .name hrole (ih h')
  | value hin _ _ ih =>
    rw [List.append_assoc]
    exact .value hin (ih h')

theorem within_cons {p : Part} {scopes : List Node} {role : Role} {n : Node} :
    Within d (p :: ps) scopes role n ↔ Within d [p] scopes role n ∨ Within d ps scopes role n :=
  @within_append d [p] ps scopes role n

theorem Within.mono {scopes : List Node} {role : Role} {n : Node} (h : Within d ps scopes role n) (hsub : ps ⊆ ps') :
    Within d ps' scopes role n := by
  cases h with
  | here h => exact .here (hsub h)
  | inside h hin => exact .inside (hsub h) hin

/-- What stands in a scope stands directly in the form that opens it. -/
theorem Within.direct {n m : Node} {outer : List Node} {role : Role} (h : Within d ps (n :: outer) role m) :
    Within d (parts d n) [] role m := by
  generalize hscopes : n :: outer = scopes at h
  induction h generalizing outer with
  | here => cases hscopes
  | @inside ps k m scopes role _ hin ih =>
    cases scopes with
    | nil =>
      have hk : scope d k = [k] := by
        unfold scope at hscopes ⊢
        split
        · rfl
        · simp_all
      rw [hk] at hscopes
      cases hscopes
      exact hin
    | cons s scopes =>
      obtain ⟨rfl, -⟩ := List.cons.inj hscopes
      exact ih rfl

theorem scope_eq_nil_or (d : Dialect) (n : Node) : scope d n = [] ∨ scope d n = [n] ∧ opensScope (Emit.formOf d n) = true := by
  unfold scope
  split
  · exact .inr ⟨rfl, ‹_›⟩
  · exact .inl rfl

/-- A scope that is opened belongs to a function or loop, and what stands directly in this form stands in the scope. -/
theorem Opens.exists_form (h : Opens d around ps nests) : ∀ c ∈ nests, ∃ n outer, c = n :: (outer ++ around) ∧
    opensScope (Emit.formOf d n) = true ∧
    ∀ role m, Within d (parts d n) [] role m → Within d ps (n :: outer) role m := by
  induction h with
  | nil => simp
  | name _ _ ih =>
    intro c hc
    obtain ⟨n, outer, hcons, hopens, hin⟩ := ih c hc
    exact ⟨n, outer, hcons, hopens, fun role m hm => (hin role m hm).mono (List.subset_cons_self _ _)⟩
  | @value around n ps inner nests _ _ ih ih' =>
    intro c hc
    rcases List.mem_append.1 hc with hc | hc
    · rcases List.mem_append.1 hc with hc | hc
      · rcases scope_eq_nil_or d n with hn | ⟨hn, hopens⟩
        · simp [hn] at hc
        · rw [hn, List.map_singleton, List.mem_singleton] at hc
          refine ⟨n, [], hc, hopens, fun role m hm => ?_⟩
          have hinside : Within d ((.value, n) :: ps) ([] ++ scope d n) role m := .inside List.mem_cons_self hm
          rwa [hn] at hinside
      · obtain ⟨k, outer, hcons, hopens, hin⟩ := ih c hc
        refine ⟨k, outer ++ scope d n, by rw [hcons, List.append_assoc], hopens, fun role m hm => ?_⟩
        exact .inside List.mem_cons_self (hin role m hm)
    · obtain ⟨k, outer, hcons, hopens, hin⟩ := ih' c hc
      exact ⟨k, outer, hcons, hopens, fun role m hm => (hin role m hm).mono (List.subset_cons_self _ _)⟩

/-- Every scope in which something is named is opened. -/
theorem Opens.mem_of_within (h : Opens d around ps nests) {role : Role} (hrole : role ≠ .value) {scopes : List Node}
    {m : Node} (hin : Within d ps scopes role m) : scopes = [] ∨ scopes ++ around ∈ nests := by
  induction h generalizing scopes with
  | nil => exact absurd hin not_within_nil
  | @name around role' n ps nests hrole' _ ih =>
    rcases within_cons.1 hin with hin | hin
    · exact .inl ((within_singleton hrole').1 hin).1
    · exact ih hin
  | @value around n ps inner nests _ _ ih ih' =>
    rcases within_cons.1 hin with hin | hin
    · obtain ⟨scopes, rfl, hparts⟩ := (within_value hrole).1 hin
      rcases ih hparts with rfl | hmem
      · rcases scope_eq_nil_or d n with hn | ⟨hn, -⟩
        · exact .inl hn
        · right
          simp [hn]
      · right
        rw [List.append_assoc scopes]
        exact List.mem_append_left _ (List.mem_append_right _ hmem)
    · rcases ih' hin with rfl | hmem
      · exact .inl rfl
      · exact .inr (List.mem_append_right _ hmem)

end Opens

end Binding

/-! ## What parts do to the table -/

namespace ScopeTable
open Binding
variable {d : Dialect} {around : List Node} {id : Int} {ps ps' : List Part} {T T' T'' : ScopeTable}
  {nests nests' : List (List Node)} {n : Node}

theorem isSome_local?_iff {t : ScopeTable} {k : Int} {s : Scope} (h : t.scope? k = some s) (name : String) :
    (t.local? k name).isSome = true ↔ ∃ e ∈ s.names, e.name = name := by
  rw [local?, h, Option.bind_some, Scope.isSome_get?_iff]

/-- What evaluating parts of a program in a scope makes of a table: new scopes come behind the old ones, and of these
only the one in which the parts are evaluated has more names than before. -/
structure Unfolds (d : Dialect) (around : List Node) (id : Int) (ps : List Part) (T T' : ScopeTable)
    (nests : List (List Node)) : Prop where
  opens : Opens d around ps nests
  size : T'.size = T.size + nests.length
  extended : T.Extends id T'
  names : ∀ name, (T'.local? id name).isSome = true ↔
    (T.local? id name).isSome = true ∨ ∃ t, Within d ps [] .binder (.leaf (.symbol name) t)
  opened : ∀ i n outer, nests[i]? = some (n :: outer) →
    (∀ name, (T'.local? (T.size + i : Nat) name).isSome = true ↔
      ∃ t, Within d (parts d n) [] .binder (.leaf (.symbol name) t)) ∧
    ∃ p, T'.parent? (T.size + i : Nat) = some p ∧
      (p = id ∧ outer = around ∨ ∃ j : Nat, p = (T.size + j : Nat) ∧ nests[j]? = some outer)

theorem unfolds_of_no_binder (hps : ∀ role n, (role, n) ∈ ps → role = .target) : Unfolds d around id ps T T [] := by
  have hnone : ∀ scopes n, ¬ Within d ps scopes .binder n := by
    rintro scopes n (h | ⟨h, -⟩)
    · cases hps _ _ h
    · cases hps _ _ h
  refine ⟨?_, rfl, .refl T id, fun name => ?_, fun i n outer h => by cases h⟩
  · clear hnone
    induction ps with
    | nil => exact .nil
    | cons p ps ih =>
      obtain ⟨role, n⟩ := p
      obtain rfl := hps role n List.mem_cons_self
      exact .name (by decide) (ih fun role n h => hps role n (List.mem_cons_of_mem _ h))
  · simp [hnone]

theorem unfolds_insert {name : String} {t : Token} (hid : (T.scope? id).isSome) :
    Unfolds d around id [(.binder, .leaf (.symbol name) t)] T (T.insert id ⟨name, t.pos⟩) [] := by
  obtain ⟨s, hs⟩ := Option.isSome_iff_exists.1 hid
  refine ⟨.name (by decide) .nil, ?_, extends_insert hid _, fun x => ?_, fun i n outer h => by cases h⟩
  · simp [size, insert]
  · rw [isSome_local?_iff (scope?_insert_self hs), isSome_local?_iff hs]
    simp only [Scope.mem_insertName, or_and_right, exists_or, exists_eq_left, within_singleton (show Role.binder ≠ .value by decide),
      Node.leaf.injEq, Value.symbol.injEq, true_and, exists_and_left, exists_eq, and_true]
    rw [or_comm, eq_comm (a := name)]

theorem Extends.local?_eq {k : Int} (h : T.Extends id T') (hk : (T.scope? k).isSome) (hne : k ≠ id) (name : String) :
    T'.local? k name = T.local? k name := by
  obtain ⟨s, hs⟩ := Option.isSome_iff_exists.1 hk
  rw [local?, local?, h.preserved k s hne hs, hs]

theorem Extends.parent?_eq {k : Int} (h : T.Extends id T') (hk : (T.scope? k).isSome) : T'.parent? k = T.parent? k := by
  obtain ⟨s, hs⟩ := Option.isSome_iff_exists.1 hk
  rw [parent?, parent?, hs]
  by_cases hne : k = id
  · subst hne
    obtain ⟨names, hs', -⟩ := h.parent s hs
    rw [hs']
    rfl
  · rw [h.preserved k s hne hs]

theorem isSome_scope?_of_lt {t : ScopeTable} {k : Nat} (h : k < t.size) : (t.scope? k).isSome = true := by
  have hs : t.scopes[k]? = some t.scopes[k] := List.getElem?_eq_getElem h
  rw [show t.scope? k = t.scopes[k]? from rfl, hs]
  rfl

theorem Unfolds.trans (hid : (T.scope? id).isSome) (h : Unfolds d around id ps T T' nests)
    (h' : Unfolds d around id ps' T' T'' nests') : Unfolds d around id (ps ++ ps') T T'' (nests ++ nests') := by
  refine ⟨h.opens.append h'.opens, ?_, h.extended.trans h'.extended, fun name => ?_, fun i n outer hi => ?_⟩
  · rw [h'.size, h.size, List.length_append, Nat.add_assoc]
  · rw [h'.names, h.names, or_assoc, ← exists_or]
    simp only [within_append]
  · have hlt := (lt_size_of_isSome hid).2
    by_cases hlength : i < nests.length
    · -- the second parts leave this scope as the first ones opened it
      rw [List.getElem?_append_left hlength] at hi
      obtain ⟨hnames, p, hp, hparent⟩ := h.opened i n outer hi
      have hsome : (T'.scope? (T.size + i : Nat)).isSome := isSome_scope?_of_lt (by rw [h.size]; omega)
      refine ⟨fun name => ?_, p, ?_, ?_⟩
      · rw [h'.extended.local?_eq hsome (by omega), hnames]
      · rw [h'.extended.parent?_eq hsome, hp]
      · refine hparent.imp_right ?_
        rintro ⟨j, hj, hnest⟩
        exact ⟨j, hj, by rw [List.getElem?_append_left (List.getElem?_eq_some_iff.1 hnest).1, hnest]⟩
    · obtain ⟨j, rfl⟩ := Nat.exists_eq_add_of_le (Nat.not_lt.1 hlength)
      rw [List.getElem?_append_right (Nat.le_add_right _ _), Nat.add_sub_cancel_left] at hi
      obtain ⟨hnames, p, hp, hparent⟩ := h'.opened j n outer hi
      rw [h.size, Nat.add_assoc] at hnames hp
      refine ⟨hnames, p, hp, hparent.imp_right ?_⟩
      rintro ⟨j', hj', hnest⟩
      refine ⟨nests.length + j', by rw [hj', h.size, Nat.add_assoc], ?_⟩
      rw [List.getElem?_append_right (Nat.le_add_right _ _), Nat.add_sub_cancel_left, hnest]

theorem Unfolds.value (hn : scope d n = []) (h : Unfolds d around id (parts d n) T T' nests) :
    Unfolds d around id [(.value, n)] T T' nests := by
  refine ⟨?_, h.size, h.extended, fun name => ?_, h.opened⟩
  · have hopens : Opens d (scope d n ++ around) (parts d n) nests := by
      rw [hn]
      exact h.opens
    simpa [hn] using hopens.value .nil
  · rw [h.names]
    simp only [within_value (show Role.binder ≠ .value by decide), hn, List.append_nil, exists_eq_left']

theorem Unfolds.scope (hid : (T.scope? id).isSome) (hn : scope d n = [n])
    (h : Unfolds d (n :: around) T.size (parts d n) (T.enter id).2 T' nests) :
    Unfolds d around id [(.value, n)] T T' ((n :: around) :: nests) := by
  obtain ⟨s, hs⟩ := Option.isSome_iff_exists.1 hid
  have hsize : (T.enter id).2.size = T.size + 1 := by simp [enter, ScopeTable.size]
  refine ⟨?_, ?_, h.extended.of_enter id, fun name => ?_, fun i m outer hi => ?_⟩
  · have hopens : Opens d (Binding.scope d n ++ around) (parts d n) nests := by
      rw [hn]
      exact h.opens
    simpa [hn] using hopens.value .nil
  · rw [h.size, hsize, List.length_cons]
    omega
  · rw [local?, local?, h.extended.preserved_enter hs, hs]
    simp [within_value (show Role.binder ≠ .value by decide), hn]
  · cases i with
    | zero =>
      obtain ⟨rfl, rfl⟩ : n = m ∧ around = outer := by simpa using hi
      refine ⟨fun name => ?_, id, ?_, .inl ⟨rfl, rfl⟩⟩
      · rw [Nat.add_zero, h.names, isSome_local?_iff (scope?_enter_size id)]
        simp
      · rw [Nat.add_zero, h.extended.parent?_eq (isSome_scope?_enter_size T id), parent?, scope?_enter_size]
        rfl
    | succ i =>
      rw [List.getElem?_cons_succ] at hi
      have hopened := h.opened i m outer hi
      have hindex : ∀ j, T.size + 1 + j = T.size + (j + 1) := by omega
      simp only [hsize, hindex] at hopened
      obtain ⟨hnames, p, hp, hparent⟩ := hopened
      refine ⟨hnames, p, hp, .inr ?_⟩
      rcases hparent with ⟨rfl, rfl⟩ | ⟨j, hj, hnest⟩
      · exact ⟨0, rfl, rfl⟩
      · exact ⟨j + 1, hj, hnest⟩

/-! ## The table of a program -/

/-- **The scopes of a table are these**, in the order of their numbers: a scope lies in the one that is around it, and it
has the names that are bound in it. -/
structure Nested (d : Dialect) (ps : List Part) (t : ScopeTable) (nests : List (List Node)) : Prop where
  size : t.size = nests.length
  root : ∀ k : Nat, nests[k]? = some [] → t.parent? k = some Scope.noScope
  parent : ∀ (k : Nat) n outer, nests[k]? = some (n :: outer) →
    ∃ p : Nat, t.parent? k = some (p : Int) ∧ nests[p]? = some outer
  names : ∀ (k : Nat) scopes, nests[k]? = some scopes → ∀ name,
    (t.local? k name).isSome = true ↔ ∃ tok, Within d ps scopes .binder (.leaf (.symbol name) tok)

theorem Unfolds.nested (h : Unfolds d [] Scope.global ps initial T nests) : Nested d ps T ([] :: nests) := by
  have hone : initial.size = 1 := rfl
  have hglobal : (initial.scope? Scope.global).isSome = true := rfl
  refine ⟨?_, fun k hk => ?_, fun k n outer hk => ?_, fun k scopes hk name => ?_⟩
  · rw [h.size, hone, List.length_cons, Nat.add_comm]
  · cases k with
    | zero => exact h.extended.parent?_eq hglobal
    | succ k =>
      obtain ⟨n, outer, hcons, -⟩ := h.opens.exists_form [] (List.mem_of_getElem? hk)
      cases hcons
  · cases k with
    | zero => cases hk
    | succ k =>
      obtain ⟨-, p, hp, hparent⟩ := h.opened k n outer hk
      rw [hone, Nat.add_comm] at hp
      rcases hparent with ⟨rfl, rfl⟩ | ⟨j, rfl, hj⟩
      · exact ⟨0, hp, rfl⟩
      · rw [hone, Nat.add_comm 1 j] at hp
        exact ⟨j + 1, hp, hj⟩
  · cases k with
    | zero =>
      obtain rfl : [] = scopes := by simpa using hk
      have hnone : (initial.local? Scope.global name).isSome = false := rfl
      rw [show ((0 : Nat) : Int) = Scope.global from rfl, h.names, hnone]
      simp
    | succ k =>
      rw [List.getElem?_cons_succ] at hk
      obtain ⟨n, outer, rfl, -, hin⟩ := h.opens.exists_form scopes (List.mem_of_getElem? hk)
      have hnames := (h.opened k n _ hk).1 name
      rw [hone, Nat.add_comm] at hnames
      rw [hnames, List.append_nil]
      exact ⟨fun ⟨t, ht⟩ => ⟨t, hin _ _ ht⟩, fun ⟨t, ht⟩ => ⟨t, ht.direct⟩⟩

/-! ## Scopes inside scopes -/

def LiesIn (t : ScopeTable) : Int → Int → Prop := Relation.TransGen fun k p => t.parent? k = some p

def OpenedBy (nests : List (List Node)) (k : Int) (n : Node) : Prop :=
  ∃ (i : Nat) (outer : List Node), k = i ∧ nests[i]? = some (n :: outer)

/-- **Functions keep the variables of a table apart**: if a name is declared in a scope and in one around it, a function
opened the inner scope or one between the two. -/
def Separated (d : Dialect) (t : ScopeTable) (nests : List (List Node)) : Prop :=
  ∀ j i name, t.LiesIn j i → (t.local? i name).isSome = true → (t.local? j name).isSome = true →
    ∃ k, (k = j ∨ t.LiesIn j k) ∧ t.LiesIn k i ∧ ∃ n, OpenedBy nests k n ∧ Emit.formOf d n = .lambda

theorem lambda_or_forLoop_of_openedBy (h : Opens d [] ps nests)
    {k : Int} {n : Node} (hn : OpenedBy ([] :: nests) k n) : Emit.formOf d n = .lambda ∨ Emit.formOf d n = .forLoop := by
  obtain ⟨i, outer, -, hi⟩ := hn
  cases i with
  | zero => cases hi
  | succ i =>
    obtain ⟨m, outer', hcons, hopens, -⟩ := h.exists_form _ (List.mem_of_getElem? hi)
    obtain ⟨rfl, -⟩ := List.cons.inj hcons
    unfold opensScope at hopens
    split at hopens
    · exact .inl ‹_›
    · exact .inr ‹_›
    · cases hopens

section Nested
variable {t : ScopeTable} {i j : Int} {scopes : List Node}

theorem exists_nat_of_isSome_local? {name : String} (h : (t.local? i name).isSome = true) :
    ∃ k : Nat, i = k ∧ k < t.size := by
  obtain ⟨s, hs⟩ : ∃ s, t.scope? i = some s := by
    cases hs : t.scope? i with
    | none => simp [local?, hs] at h
    | some s => exact ⟨s, rfl⟩
  obtain ⟨h0, hlt⟩ := lt_size_of_scope? hs
  exact ⟨i.toNat, by omega, by omega⟩

theorem Nested.exists_nest (h : Nested d ps t nests) {name : String} (hname : (t.local? i name).isSome = true) :
    ∃ (k : Nat) (scopes : List Node), i = k ∧ nests[k]? = some scopes ∧
      ∃ tok, Within d ps scopes .binder (.leaf (.symbol name) tok) := by
  obtain ⟨k, rfl, hk⟩ := exists_nat_of_isSome_local? hname
  rw [h.size] at hk
  have hnest := List.getElem?_eq_getElem hk
  exact ⟨k, nests[k], rfl, hnest, (h.names k _ hnest name).1 hname⟩

theorem Nested.step (h : Nested d ps t nests) {p : Nat} (hp : t.parent? j = some (p : Int)) :
    ∃ (k : Nat) (n : Node) (outer : List Node), j = k ∧ nests[k]? = some (n :: outer) ∧ nests[p]? = some outer := by
  obtain ⟨s, hs, -⟩ := Option.map_eq_some_iff.1 hp
  obtain ⟨h0, hlt⟩ := lt_size_of_scope? hs
  obtain ⟨k, rfl⟩ := Int.eq_ofNat_of_zero_le h0
  have hk : k < nests.length := by
    rw [← h.size]
    omega
  have hnest := List.getElem?_eq_getElem hk
  cases hscopes : nests[k] with
  | nil =>
    rw [hscopes] at hnest
    rw [h.root k hnest] at hp
    cases hp
  | cons n outer =>
    rw [hscopes] at hnest
    obtain ⟨p', hp', houter⟩ := h.parent k n outer hnest
    rw [hp, Option.some.injEq, Nat.cast_inj] at hp'
    exact ⟨k, n, outer, rfl, hnest, hp' ▸ houter⟩

/-- From a scope outward to another one lie the scopes of the forms that are around the first and not the second. -/
theorem Nested.between (h : Nested d ps t nests) {p : Nat} (hlies : t.LiesIn j p) :
    ∃ (k : Nat) (between outer : List Node), j = k ∧ between ≠ [] ∧ nests[k]? = some (between ++ outer) ∧
      nests[p]? = some outer ∧ ∀ n ∈ between, ∃ i, (i = j ∨ t.LiesIn j i) ∧ t.LiesIn i p ∧ OpenedBy nests i n := by
  induction hlies using Relation.TransGen.head_induction_on with
  | @single j hp =>
    obtain ⟨k, n, outer, rfl, hk, houter⟩ := h.step hp
    refine ⟨k, [n], outer, rfl, by simp, hk, houter, fun m hm => ?_⟩
    obtain rfl := List.mem_singleton.1 hm
    exact ⟨k, .inl rfl, .single hp, k, outer, rfl, hk⟩
  | @head j j' hp hlies ih =>
    obtain ⟨k', between, outer, rfl, -, hk', houter, hbetween⟩ := ih
    obtain ⟨k, n, rest, rfl, hk, hrest⟩ := h.step hp
    obtain rfl : rest = between ++ outer := Option.some.inj (hrest.symm.trans hk')
    refine ⟨k, n :: between, outer, rfl, by simp, hk, houter, List.forall_mem_cons.2 ⟨?_, fun m hm => ?_⟩⟩
    · exact ⟨k, .inl rfl, .head hp hlies, k, _, rfl, hk⟩
    · obtain ⟨i, hi, hip, hopened⟩ := hbetween m hm
      refine ⟨i, .inr ?_, hip, hopened⟩
      rcases hi with rfl | hi
      · exact .single hp
      · exact .head hp hi

theorem Nested.exists_outward (h : Nested d ps t nests) {outer : List Node} : ∀ {between : List Node} {k : Nat},
    between ≠ [] → nests[k]? = some (between ++ outer) → ∃ p : Nat, t.LiesIn k p ∧ nests[p]? = some outer := by
  intro between
  induction between with
  | nil => exact fun hne => absurd rfl hne
  | cons n between ih =>
    intro k _ hk
    obtain ⟨p, hp, hrest⟩ := h.parent k n (between ++ outer) hk
    cases between with
    | nil => exact ⟨p, .single hp, hrest⟩
    | cons m between =>
      obtain ⟨p', hp', houter⟩ := ih (by simp) hrest
      exact ⟨p', .head hp hp', houter⟩

/-- The forms that opened the scopes from one to another, the second one left out, are those between the two. -/
theorem Nested.mem_between (h : Nested d ps t nests) {k p : Nat} {between outer : List Node}
    (hk : nests[k]? = some (between ++ outer)) (hp : nests[p]? = some outer) (hkj : j = k ∨ t.LiesIn k j)
    (hjp : t.LiesIn j p) {n : Node} (hn : OpenedBy nests j n) : n ∈ between := by
  obtain ⟨j', rest, rfl, hrest⟩ := hn
  obtain ⟨j, inner, outer', hj, hne, hinner, houter, -⟩ := h.between hjp
  obtain rfl : j' = j := Nat.cast_inj.1 hj
  obtain rfl : outer = outer' := Option.some.inj (hp.symm.trans houter)
  have hmem : n ∈ inner := by
    obtain ⟨m, inner, rfl⟩ := List.exists_cons_of_ne_nil hne
    cases Option.some.inj (hrest.symm.trans hinner)
    exact List.mem_cons_self
  rcases hkj with hkj | hkj
  · obtain rfl : j' = k := Nat.cast_inj.1 hkj
    rwa [List.append_cancel_right (Option.some.inj (hk.symm.trans hinner))]
  · obtain ⟨k', first, outer', hk', -, hfirst, houter', -⟩ := h.between hkj
    obtain rfl : k = k' := Nat.cast_inj.1 hk'
    obtain rfl : inner ++ outer = outer' := Option.some.inj (hinner.symm.trans houter')
    have heq := Option.some.inj (hk.symm.trans hfirst)
    rw [← List.append_assoc] at heq
    rw [List.append_cancel_right heq]
    exact List.mem_append_right _ hmem

end Nested

end ScopeTable

namespace Emit
open Binding ScopeTable

def unfolding : Partwise standard where
  Holds id m ps := ∀ around T a T', (T.scope? id).isSome = true → exec m T = (.ok a, T') →
    ∃ nests, Unfolds standard around id ps T T' nests
  holds_pure a := by
    intro around T b T' _ h
    cases h
    exact ⟨[], unfolds_of_no_binder (by simp)⟩
  holds_fail _ := by
    intro around T a T' _ h
    cases h
  holds_bind hm hk := by
    intro around T b T'' hid h
    obtain ⟨a, T', ha, hb⟩ := exec_bind_ok h
    obtain ⟨nests, hT⟩ := hm around T a T' hid ha
    obtain ⟨nests', hT'⟩ := hk a T T' ha around T' b T'' (hT.extended.isSome hid) hb
    exact ⟨nests ++ nests', hT.trans hid hT'⟩
  holds_value hm hn := by
    intro around T a T' hid h
    obtain ⟨nests, hT⟩ := hm around T a T' hid h
    exact ⟨nests, hT.value hn⟩
  holds_scope {α id n body} hn hbody := by
    intro around T a T' hid h
    have hnew : ((T.enter id).2.scope? (T.size : Int)).isSome = true := by
      rw [scope?_enter_size]
      rfl
    obtain ⟨nests, hT⟩ := hbody T.size (n :: around) (T.enter id).2 a T' hnew h
    exact ⟨(n :: around) :: nests, hT.scope hid hn⟩
  holds_declare {id} name t _ := by
    intro around T a T' hid h
    rw [exec_modifyGet_bind, ScopeTable.declare] at h
    cases hlocal : T.local? id name with
    | some previous =>
      rw [hlocal] at h
      cases h
    | none =>
      rw [hlocal] at h
      cases h
      exact ⟨[], unfolds_insert hid⟩
  holds_target name t := by
    intro around T a T' hid h
    rw [exec_get_bind] at h
    split at h
    · cases h
      exact ⟨[], unfolds_of_no_binder (by simp)⟩
    · cases h
  usual_or_coarse := .inl ⟨rfl, rfl⟩

/-- **The table of an accepted program has the scopes that the program opens.** -/
theorem exists_nested {ns : List Node} {code : String} {T : ScopeTable}
    (h : generate standard .initial ns = (.ok code, T)) :
    ∃ nests, Opens standard [] (values ns) nests ∧ T.Nested standard (values ns) ([] :: nests) := by
  obtain ⟨codes, hcodes, -⟩ := generate_eq_ok_iff.1 h
  obtain ⟨nests, hT⟩ := Partwise.nodes_holds (A := unfolding) ns .top (.inl rfl) [] .initial codes T rfl hcodes
  exact ⟨nests, hT.opens, hT.nested⟩

/-- **A name is bound in a loop and also around it**, with nothing but loops between. -/
def LoopShadows (d : Dialect) (ps : List Part) : Prop :=
  ∃ loops outer name t t', loops ≠ [] ∧ (∀ n ∈ loops, formOf d n = .forLoop) ∧
    Within d ps (loops ++ outer) .binder (.leaf (.symbol name) t) ∧ Within d ps outer .binder (.leaf (.symbol name) t')

theorem not_loopShadows_of_separated {d : Dialect} {ps : List Part} {T : ScopeTable} {nests : List (List Node)}
    (hopens : Opens d [] ps nests) (h : T.Nested d ps ([] :: nests)) (hsep : T.Separated d ([] :: nests)) :
    ¬ LoopShadows d ps := by
  rintro ⟨loops, outer, name, t, t', hne, hloops, hin, hout⟩
  have hmem : loops ++ outer ∈ nests := by
    rcases hopens.mem_of_within (by decide) hin with hnil | hmem
    · exact absurd (List.append_eq_nil_iff.1 hnil).1 hne
    · rwa [List.append_nil] at hmem
  obtain ⟨j, hj⟩ := List.mem_iff_getElem?.1 (List.mem_cons_of_mem [] hmem)
  obtain ⟨i, hji, hi⟩ := h.exists_outward hne hj
  obtain ⟨k, hjk, hki, n, hopened, hform⟩ := hsep j i name hji ((h.names i outer hi name).2 ⟨t', hout⟩)
    ((h.names j _ hj name).2 ⟨t, hin⟩)
  -- the function would be one of the loops
  rw [hloops n (h.mem_between hj hi hjk hki hopened)] at hform
  cases hform

theorem separated_of_not_loopShadows {d : Dialect} {ps : List Part} {T : ScopeTable} {nests : List (List Node)}
    (hopens : Opens d [] ps nests) (h : T.Nested d ps ([] :: nests)) (hshadows : ¬ LoopShadows d ps) :
    T.Separated d ([] :: nests) := by
  intro j i name hji hi hj
  obtain ⟨i', outer, rfl, hi', t', hout⟩ := h.exists_nest hi
  obtain ⟨j', between, outer', rfl, hne, hj', houter', hbetween⟩ := h.between hji
  obtain rfl : outer = outer' := Option.some.inj (hi'.symm.trans houter')
  obtain ⟨t, hin⟩ := (h.names j' _ hj' name).1 hj
  by_contra hnone
  refine hshadows ⟨between, outer, name, t, t', hne, fun n hn => ?_, hin, hout⟩
  obtain ⟨k, hjk, hki, hopened⟩ := hbetween n hn
  rcases lambda_or_forLoop_of_openedBy hopens hopened with hform | hform
  · exact absurd ⟨k, hjk, hki, n, hopened, hform⟩ hnone
  · exact hform

/-- **Which variables the target keeps apart.** The table of an accepted program has one scope for each function and loop
that the program evaluates, each in the one around it. A name that is declared in two of these scopes, one inside the
other, is kept apart by a function always, unless the program binds some name in a loop and also around it with nothing
but loops between. -/
theorem generate_separated_iff {ns : List Node} {code : String} {T : ScopeTable}
    (h : generate standard .initial ns = (.ok code, T)) :
    ∃ nests, Opens standard [] (values ns) nests ∧ T.Nested standard (values ns) ([] :: nests) ∧
      (T.Separated standard ([] :: nests) ↔ ¬ LoopShadows standard (values ns)) := by
  obtain ⟨nests, hopens, hnested⟩ := exists_nested h
  exact ⟨nests, hopens, hnested, not_loopShadows_of_separated hopens hnested, separated_of_not_loopShadows hopens hnested⟩

/-- A parameter with the name of a variable around the function is kept apart from it. -/
theorem generate_separated_parameter :
    let t : Token := ⟨.atom, "", .start⟩
    let x : Node := .leaf (.symbol "x") t
    let f : Node := .list [.leaf (.symbol "fun") t, .list [x] t, x] t
    let ns : List Node := [.list [.leaf (.symbol "var") t, x, f] t]
    (generate standard .initial ns).1 = .ok "var x = function(x) \x7b return x; \x7d;\n" ∧
      ∃ nests, Opens standard [] (values ns) nests ∧
        (generate standard .initial ns).2.Separated standard ([] :: nests) := by
  intro t x f ns
  have hcode : (generate standard .initial ns).1 = .ok "var x = function(x) \x7b return x; \x7d;\n" := by cbv
  have hf : parts standard f = [(.binder, x), (.value, x)] := rfl
  have hns : parts standard (.list [.leaf (.symbol "var") t, x, f] t) = [(.binder, x), (.value, f)] := rfl
  have hshadows : ¬ LoopShadows standard (values ns) := by
    rintro ⟨loops, outer, name, u, -, hne, hloops, hin, -⟩
    -- the only scope around a binder is the function
    obtain ⟨scopes, hscopes, hin⟩ := (within_value (by decide)).1 hin
    rw [hns] at hin
    have hfun : loops ++ outer = [f] := by
      rcases within_cons.1 hin with hin | hin
      · obtain ⟨rfl, -⟩ := (within_singleton (by decide)).1 hin
        exact absurd (List.append_eq_nil_iff.1 hscopes).1 hne
      · obtain ⟨inner, rfl, hinner⟩ := (within_value (by decide)).1 hin
        rw [hf] at hinner
        rcases within_cons.1 hinner with hinner | hinner
        · obtain ⟨rfl, -⟩ := (within_singleton (by decide)).1 hinner
          exact hscopes
        · obtain ⟨_, -, hleaf⟩ := (within_value (by decide)).1 hinner
          exact absurd hleaf not_within_nil
    obtain ⟨n, loops, rfl⟩ := List.exists_cons_of_ne_nil hne
    obtain ⟨rfl, -⟩ := List.cons.inj hfun
    exact absurd (hloops f List.mem_cons_self) (by decide)
  obtain ⟨nests, hopens, -, hsep⟩ := generate_separated_iff (Prod.ext hcode rfl)
  exact ⟨hcode, nests, hopens, hsep.2 hshadows⟩

/-- A loop in the scope of a variable with the name of its own: two scopes, and no function. -/
theorem generate_collapses_loop :
    let ns := (Reading.ofText standard "(var i 5)\n(for i 1 3 (f i))".toList).nodes
    (generate standard .initial ns).1 = .ok "var i = 5;\nfor (var i = 1; i <= 3; i++) \x7b f(i); \x7d;\n" ∧
      (generate standard .initial ns).2 = ⟨[⟨Scope.noScope, [⟨"i", ⟨1, 6⟩⟩]⟩, ⟨Scope.global, [⟨"i", ⟨2, 6⟩⟩]⟩]⟩ ∧
      ns.map (fun n => (formOf standard n, n.surface)) =
        [(.declaration, "(var i 5)"), (.forLoop, "(for i 1 3 (f i))")] :=
  ⟨by cbv, by cbv, by cbv⟩

end Emit
end QuasiScript
