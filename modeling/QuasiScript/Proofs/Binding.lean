import QuasiScript.Emit.Node
import QuasiScript.Proofs.Grammar
import QuasiScript.Proofs.Positions

/-!
# Binders and targets of a program

What a form does with its parts: some are evaluated, some name a new variable, some are assigned to, and the rest is
data (`parts`). From part to part this says where in a program a node stands in one of these roles, and which functions
and loops are around it there (`Within`). A node remembers its tokens, so in a program that was read from a text no two
nodes at different places are equal: their leaves stand one behind the other (`ordered_of_ofText`).
-/
namespace QuasiScript
open Dialect (standard)

namespace Node

mutual

def positions : Node → List Position
  | .leaf _ t => [t.pos]
  | .list es _ => positionsEach es

def positionsEach : List Node → List Position
  | [] => []
  | n :: ns => positions n ++ positionsEach ns

end

theorem positionsEach_eq_flatMap (ns : List Node) : positionsEach ns = ns.flatMap positions := by
  induction ns with
  | nil => rfl
  | cons n ns ih => rw [positionsEach, ih, List.flatMap_cons]

theorem positionsEach_append (ns ns' : List Node) :
    positionsEach (ns ++ ns') = positionsEach ns ++ positionsEach ns' := by
  simp only [positionsEach_eq_flatMap, List.flatMap_append]

theorem positionsEach_sublist {ns ns' : List Node} (h : ns.Sublist ns') :
    (positionsEach ns).Sublist (positionsEach ns') := by
  induction h with
  | slnil => exact .slnil
  | cons n _ ih => exact ih.trans (List.sublist_append_right _ _)
  | cons_cons n _ ih => exact ih.append_left _

end Node

namespace Binding

/-! ## The parts of a form -/

inductive Role where
  /-- It is evaluated. -/
  | value
  /-- It names a new variable. -/
  | binder
  /-- It is assigned to. -/
  | target
deriving DecidableEq

abbrev Part : Type := Role × Node

def values (ns : List Node) : List Part := ns.map (Prod.mk .value)

/-- The arguments of an assignment: the last one is the value. -/
def assigned (role : Role) (args : List Node) : List Part :=
  args.dropLast.map (Prod.mk role) ++ values args.getLast?.toList

/-- The arguments of a declaration: a name, a name and its initial value, or an assignment, whose targets are new. -/
def declared : List Node → List Part
  | [] => []
  | .list es _ :: rest => assigned .binder es.tail ++ declared rest
  | [.leaf v t] => [(.binder, .leaf v t)]
  | .leaf v t :: n :: rest =>
    if Emit.isInitializer n then (.binder, .leaf v t) :: (.value, n) :: declared rest
    else (.binder, .leaf v t) :: declared (n :: rest)

/-- The names in a parameter list. A dot stands before the one that collects the remaining arguments. -/
def parameterParts (ps : List Node) : List Part :=
  (ps.filter fun p => p.symbol? != some ".").map (Prod.mk .binder)

def lambdaParts : List Node → List Part
  | .list ps _ :: body => parameterParts ps ++ values body
  | _ => []

def loopParts : List Node → List Part
  | n :: rest => (.binder, n) :: values rest
  | [] => []

def clauseElements : List Node → List Node
  | [] => []
  | .list es _ :: rest => es ++ clauseElements rest
  | .leaf _ _ :: rest => clauseElements rest

def entryValues : List Node → List Node
  | _ :: n :: rest => n :: entryValues rest
  | _ => []

mutual

def unquoted (d : Dialect) : Node → List Node
  | .leaf _ _ => []
  | .list es t =>
    match Emit.formOf d (.list es t) with
    | .unquote | .unquoteSplicing => es.tail
    | _ => unquotedEach d es

def unquotedEach (d : Dialect) : List Node → List Node
  | [] => []
  | n :: ns => unquoted d n ++ unquotedEach d ns

end

/-- What a form does with its elements, in their order. Those that are not here are names or data. -/
def formParts (d : Dialect) (form : Form) (es : List Node) : List Part :=
  match form with
  | .declaration => declared es.tail
  | .assignment => assigned .target es.tail
  | .lambda => lambdaParts es.tail
  | .forLoop => loopParts es.tail
  | .conditional => values (clauseElements es.tail)
  | .object => values (entryValues es.tail)
  | .quasiquote => values (unquotedEach d es.tail)
  | .sequence | .when | .whileLoop | .untilLoop | .array => values es.tail
  | .ordinary | .unassigned _ => values es
  | .existence | .quote | .unquote | .unquoteSplicing => []

/-- **What an evaluated node does with its parts.** -/
def parts (d : Dialect) : Node → List Part
  | .leaf _ _ => []
  | .list es t => formParts d (Emit.formOf d (.list es t)) es

def opensScope : Form → Bool
  | .lambda | .forLoop => true
  | _ => false

def scope (d : Dialect) (n : Node) : List Node := if opensScope (Emit.formOf d n) then [n] else []

/-- **A node stands in a role somewhere in these parts**, with these scopes around it there, the nearest first. -/
inductive Within (d : Dialect) : List Part → List Node → Role → Node → Prop where
  | here {ps : List Part} {role : Role} {n : Node} : (role, n) ∈ ps → Within d ps [] role n
  | inside {ps : List Part} {n m : Node} {scopes : List Node} {role : Role} : (.value, n) ∈ ps →
      Within d (parts d n) scopes role m → Within d ps (scopes ++ scope d n) role m

/-- **A name is bound at a place**: a binder stands before it in the text, and the scopes around the binder, the nearest
first, are around the place too. -/
def BoundAt (d : Dialect) (ps : List Part) (scopes : List Node) (pos : Position) (name : String) : Prop :=
  ∃ around t, Within d ps around .binder (.leaf (.symbol name) t) ∧ t.pos.Before pos ∧ around <:+ scopes

/-! ## Order -/

def places (ps : List Part) : List Position := Node.positionsEach (ps.map Prod.snd)

def Ordered (ps : List Part) : Prop := (places ps).Pairwise Position.Before

section Order
variable {d : Dialect} {ps ps' : List Part}

@[simp] theorem places_append (ps ps' : List Part) : places (ps ++ ps') = places ps ++ places ps' := by
  rw [places, List.map_append, Node.positionsEach_append]
  rfl

@[simp] theorem places_map (role : Role) (ns : List Node) : places (ns.map (Prod.mk role)) = Node.positionsEach ns := by
  simp [places, Function.comp_def]

@[simp] theorem places_values (ns : List Node) : places (values ns) = Node.positionsEach ns := places_map .value ns

theorem places_assigned (role : Role) (args : List Node) : places (assigned role args) = Node.positionsEach args := by
  have hargs : args.dropLast ++ args.getLast?.toList = args := by
    rcases List.eq_nil_or_concat args with rfl | ⟨ns, n, rfl⟩
    · rfl
    · simp
  rw [assigned, places_append, places_values, places_map, ← Node.positionsEach_append, hargs]

theorem positionsEach_tail_sublist (es : List Node) :
    (Node.positionsEach es.tail).Sublist (Node.positionsEach es) :=
  Node.positionsEach_sublist (List.tail_sublist es)

theorem declared_sublist : ∀ args : List Node, (places (declared args)).Sublist (Node.positionsEach args)
  | [] => .slnil
  | .list es t :: rest => by
    rw [declared, places_append, places_assigned]
    exact (positionsEach_tail_sublist es).append (declared_sublist rest)
  | [.leaf v t] => List.Sublist.refl _
  | .leaf v t :: n :: rest => by
    unfold declared
    split
    · exact ((declared_sublist rest).append_left n.positions).cons_cons t.pos
    · exact (declared_sublist (n :: rest)).cons_cons t.pos

theorem lambdaParts_sublist (args : List Node) : (places (lambdaParts args)).Sublist (Node.positionsEach args) := by
  unfold lambdaParts
  split
  · rw [places_append, places_values, parameterParts, places_map]
    exact (Node.positionsEach_sublist List.filter_sublist).append_right _
  · exact List.nil_sublist _

theorem clauseElements_sublist (args : List Node) :
    (Node.positionsEach (clauseElements args)).Sublist (Node.positionsEach args) := by
  induction args with
  | nil => exact .slnil
  | cons n args ih =>
    cases n with
    | leaf v t => exact ih.trans (List.sublist_append_right _ _)
    | list es t =>
      rw [clauseElements, Node.positionsEach_append]
      exact ih.append_left _

theorem entryValues_sublist : ∀ args : List Node, (entryValues args).Sublist args
  | [] => .slnil
  | [_] => List.nil_sublist _
  | k :: n :: rest => ((entryValues_sublist rest).cons_cons n).cons k

mutual

theorem unquoted_sublist : ∀ n : Node, (Node.positionsEach (unquoted d n)).Sublist n.positions
  | .leaf v t => List.nil_sublist _
  | .list es t => by
    unfold unquoted
    split
    · exact positionsEach_tail_sublist es
    · exact positionsEach_tail_sublist es
    · exact unquotedEach_sublist es

theorem unquotedEach_sublist : ∀ ns : List Node,
    (Node.positionsEach (unquotedEach d ns)).Sublist (Node.positionsEach ns)
  | [] => .slnil
  | n :: ns => by
    rw [unquotedEach, Node.positionsEach_append]
    exact (unquoted_sublist n).append (unquotedEach_sublist ns)

end

theorem formParts_sublist (form : Form) (es : List Node) :
    (places (formParts d form es)).Sublist (Node.positionsEach es) := by
  have htail := positionsEach_tail_sublist es
  cases form with
  | declaration => exact (declared_sublist es.tail).trans htail
  | assignment =>
    rw [formParts, places_assigned]
    exact htail
  | lambda => exact (lambdaParts_sublist es.tail).trans htail
  | forLoop =>
    refine List.Sublist.trans ?_ htail
    unfold formParts loopParts
    cases es.tail with
    | nil => exact .slnil
    | cons n rest =>
      have hloop : places ((.binder, n) :: values rest) = n.positions ++ places (values rest) := rfl
      rw [hloop, places_values]
      exact List.Sublist.refl _
  | conditional =>
    rw [formParts, places_values]
    exact (clauseElements_sublist es.tail).trans htail
  | object =>
    rw [formParts, places_values]
    exact (Node.positionsEach_sublist (entryValues_sublist es.tail)).trans htail
  | quasiquote =>
    rw [formParts, places_values]
    exact (unquotedEach_sublist es.tail).trans htail
  | sequence | «when» | whileLoop | untilLoop | array =>
    rw [formParts, places_values]
    exact htail
  | ordinary | unassigned k =>
    rw [formParts, places_values]
  | existence | quote | unquote | unquoteSplicing => exact List.nil_sublist _

/-- **The parts of a node stand in it**, in the order in which they are there. -/
theorem parts_sublist (n : Node) : (places (parts d n)).Sublist n.positions := by
  cases n with
  | leaf v t => exact List.nil_sublist _
  | list es t => exact formParts_sublist _ es

/-! ## What stands in parts -/

theorem not_within_nil {scopes : List Node} {role : Role} {n : Node} : ¬ Within d [] scopes role n := by
  rintro (h | ⟨h, -⟩) <;> cases h

theorem within_append {scopes : List Node} {role : Role} {n : Node} :
    Within d (ps ++ ps') scopes role n ↔ Within d ps scopes role n ∨ Within d ps' scopes role n := by
  constructor
  · rintro (h | ⟨h, hin⟩)
    · rcases List.mem_append.1 h with h | h
      · exact .inl (.here h)
      · exact .inr (.here h)
    · rcases List.mem_append.1 h with h | h
      · exact .inl (.inside h hin)
      · exact .inr (.inside h hin)
  · rintro ((h | ⟨h, hin⟩) | (h | ⟨h, hin⟩))
    · exact .here (List.mem_append_left _ h)
    · exact .inside (List.mem_append_left _ h) hin
    · exact .here (List.mem_append_right _ h)
    · exact .inside (List.mem_append_right _ h) hin

/-- Under an evaluated node stands what stands in its parts. -/
theorem within_value {n m : Node} {scopes : List Node} {role : Role} (hrole : role ≠ .value) :
    Within d [(.value, n)] scopes role m ↔
      ∃ inner, scopes = inner ++ scope d n ∧ Within d (parts d n) inner role m := by
  constructor
  · rintro (h | ⟨h, hin⟩)
    · simp only [List.mem_singleton, Prod.mk.injEq] at h
      exact absurd h.1 hrole
    · simp only [List.mem_singleton, Prod.mk.injEq, true_and] at h
      subst h
      exact ⟨_, rfl, hin⟩
  · rintro ⟨inner, rfl, hin⟩
    exact .inside (by simp) hin

theorem within_singleton {role role' : Role} {n m : Node} {scopes : List Node} (hrole : role ≠ .value) :
    Within d [(role, n)] scopes role' m ↔ scopes = [] ∧ role' = role ∧ m = n := by
  constructor
  · rintro (h | ⟨h, -⟩)
    · simpa using h
    · simp only [List.mem_singleton, Prod.mk.injEq] at h
      exact absurd h.1.symm hrole
  · rintro ⟨rfl, rfl, rfl⟩
    exact .here (by simp)

theorem mem_places_of_mem {role : Role} {n : Node} (h : (role, n) ∈ ps) {p : Position} (hp : p ∈ n.positions) :
    p ∈ places ps := by
  rw [places, Node.positionsEach_eq_flatMap, List.mem_flatMap]
  exact ⟨n, List.mem_map_of_mem (f := Prod.snd) h, hp⟩

theorem Within.mem_places {scopes : List Node} {role : Role} {n : Node} (h : Within d ps scopes role n) {p : Position}
    (hp : p ∈ n.positions) : p ∈ places ps := by
  induction h with
  | here h => exact mem_places_of_mem h hp
  | @inside ps n m scopes role h _ ih => exact mem_places_of_mem h ((parts_sublist n).subset (ih hp))

theorem Within.leaf_mem_places {scopes : List Node} {role : Role} {v : Value} {t : Token}
    (h : Within d ps scopes role (.leaf v t)) : t.pos ∈ places ps :=
  h.mem_places (List.mem_singleton_self t.pos)

/-- The leaves of a node are in every scope around it, and those of the scope in the parts. -/
theorem Within.mem_scope {scopes : List Node} {role : Role} {n : Node} (h : Within d ps scopes role n) :
    ∀ s ∈ scopes, (∀ p ∈ n.positions, p ∈ s.positions) ∧ ∀ p ∈ s.positions, p ∈ places ps := by
  induction h with
  | here h => simp
  | @inside ps n m scopes role h hin ih =>
    intro s hs
    have hsub : ∀ p ∈ places (parts d n), p ∈ n.positions := fun p hp => (parts_sublist n).subset hp
    rcases List.mem_append.1 hs with hs | hs
    · obtain ⟨hm, hplaces⟩ := ih s hs
      exact ⟨hm, fun p hp => mem_places_of_mem h (hsub p (hplaces p hp))⟩
    · obtain rfl : s = n := by
        unfold scope at hs
        split at hs
        · exact List.mem_singleton.1 hs
        · cases hs
      exact ⟨fun p hp => hsub p (hin.mem_places hp), fun p => mem_places_of_mem h⟩

section BoundAt
variable {scopes : List Node} {pos : Position} {name : String}

theorem BoundAt.append_left (h : BoundAt d ps scopes pos name) : BoundAt d (ps ++ ps') scopes pos name := by
  obtain ⟨around, t, hin, hrest⟩ := h
  exact ⟨around, t, within_append.2 (.inl hin), hrest⟩

theorem BoundAt.append_right (h : BoundAt d ps' scopes pos name) : BoundAt d (ps ++ ps') scopes pos name := by
  obtain ⟨around, t, hin, hrest⟩ := h
  exact ⟨around, t, within_append.2 (.inr hin), hrest⟩

/-- What binds a name in the parts of a node binds it in the node. -/
theorem boundAt_value {n : Node} {inner : List Node} :
    BoundAt d [(.value, n)] (inner ++ scope d n) pos name ↔ BoundAt d (parts d n) inner pos name := by
  constructor
  · rintro ⟨_, t, h, hbefore, hsuffix⟩
    obtain ⟨around, rfl, hin⟩ := (within_value (by decide)).1 h
    exact ⟨around, t, hin, hbefore, List.suffix_append_self_iff.1 hsuffix⟩
  · rintro ⟨around, t, hin, hbefore, hsuffix⟩
    exact ⟨_, t, (within_value (by decide)).2 ⟨around, rfl, hin⟩, hbefore, List.suffix_append_self_iff.2 hsuffix⟩

end BoundAt

theorem Ordered.left (h : Ordered (ps ++ ps')) : Ordered ps := by
  rw [Ordered, places_append, List.pairwise_append] at h
  exact h.1

theorem Ordered.right (h : Ordered (ps ++ ps')) : Ordered ps' := by
  rw [Ordered, places_append, List.pairwise_append] at h
  exact h.2.1

theorem Ordered.before (h : Ordered (ps ++ ps')) {p q : Position} (hp : p ∈ places ps) (hq : q ∈ places ps') :
    p.Before q := by
  rw [Ordered, places_append, List.pairwise_append] at h
  exact h.2.2 p hp q hq

theorem Ordered.parts {role : Role} {n : Node} (h : Ordered ps) (hn : (role, n) ∈ ps) : Ordered (parts d n) := by
  have hsub : n.positions.Sublist (places ps) := by
    have hone := Node.positionsEach_sublist (List.singleton_sublist.2 (List.mem_map_of_mem (f := Prod.snd) hn))
    rwa [Node.positionsEach, Node.positionsEach, List.append_nil] at hone
  exact h.sublist ((parts_sublist n).trans hsub)

/-- Parts that share a leaf are the same part. -/
theorem Ordered.eq_of_mem {q q' : Part} {p : Position} (h : Ordered ps) (hq : q ∈ ps) (hq' : q' ∈ ps)
    (hp : p ∈ q.2.positions) (hp' : p ∈ q'.2.positions) : q = q' := by
  induction ps with
  | nil => cases hq
  | cons r ps ih =>
    have hcons : Ordered ([r] ++ ps) := h
    have hhead : ∀ {x : Part}, x ∈ ps → p ∈ x.2.positions → p ∉ r.2.positions := by
      intro x hx hpx hpr
      exact (hcons.before (mem_places_of_mem (List.mem_singleton_self r) hpr) (mem_places_of_mem hx hpx)).ne rfl
    rcases List.mem_cons.1 hq with rfl | hmem
    · rcases List.mem_cons.1 hq' with rfl | hmem'
      · rfl
      · exact absurd hp (hhead hmem' hp')
    · rcases List.mem_cons.1 hq' with rfl | hmem'
      · exact absurd hp' (hhead hmem hp)
      · exact ih hcons.right hmem hmem'

/-- **A leaf stands in one place only.** -/
theorem Within.unique {scopes : List Node} {role : Role} {n : Node} (h : Within d ps scopes role n) (hps : Ordered ps)
    (hrole : role ≠ .value) {scopes' : List Node} {n' : Node} (h' : Within d ps scopes' role n') {p : Position}
    (hp : p ∈ n.positions) (hp' : p ∈ n'.positions) : scopes' = scopes ∧ n' = n := by
  -- on both ways down to the leaf the parts are the same, and neither way ends before the other
  induction h generalizing scopes' with
  | @here ps role n h =>
    cases h' with
    | here h' => exact ⟨rfl, (Prod.mk.inj (hps.eq_of_mem h' h hp' hp)).2⟩
    | @inside _ m _ scopes' _ h' hin' =>
      have hm : p ∈ m.positions := (parts_sublist m).subset (hin'.mem_places hp')
      exact absurd (Prod.mk.inj (hps.eq_of_mem h h' hp hm)).1 hrole
  | @inside ps m n scopes role h hin ih =>
    have hm : p ∈ m.positions := (parts_sublist m).subset (hin.mem_places hp)
    cases h' with
    | here h' => exact absurd (Prod.mk.inj (hps.eq_of_mem h' h hp' hm)).1 hrole
    | @inside _ m' _ scopes' _ h' hin' =>
      have hm' : p ∈ m'.positions := (parts_sublist m').subset (hin'.mem_places hp')
      obtain rfl : m' = m := (Prod.mk.inj (hps.eq_of_mem h' h hm' hm)).2
      obtain ⟨rfl, rfl⟩ := ih (hps.parts h) hrole hin' hp
      exact ⟨rfl, rfl⟩

end Order
end Binding

/-! ## Programs that were read -/

namespace Reading
open Token (words)

theorem positionsEach_items_sublist {items : List (List Token × Node)}
    (h : ∀ i ∈ items, i.2.positions.Sublist (i.1.map Token.pos)) :
    (Node.positionsEach (items.map Prod.snd)).Sublist ((items.flatMap Prod.fst).map Token.pos) := by
  induction items with
  | nil => exact .slnil
  | cons i items ih =>
    obtain ⟨hi, hitems⟩ := List.forall_mem_cons.1 h
    rw [List.flatMap_cons, List.map_append]
    exact hi.append (ih hitems)

/-- The leaves of a tree stand where the tokens stand from which it is derived. -/
theorem Derives.positions_sublist {d : Dialect} {ts : List Token} {n : Node} (h : Derives d ts n) :
    n.positions.Sublist (ts.map Token.pos) := by
  induction h with
  | atom | string => exact List.Sublist.refl _
  | list items _ _ _ _ _ ih =>
    rw [List.map_cons, List.map_append]
    exact ((positionsEach_items_sublist ih).trans (List.sublist_append_left _ _)).cons _
  | sugaredList items _ _ _ _ _ ih =>
    rw [List.map_cons, List.map_append]
    exact ((positionsEach_items_sublist ih).trans (List.sublist_append_left _ _)).cons_cons _
  | @sugared p ps ts symbol n _ _ _ ih =>
    have hpositions : Node.positions (.list [.leaf (.symbol symbol) (Token.fused p ps), n] (Token.fused p ps)) =
        p.pos :: n.positions := by simp [Node.positions, Node.positionsEach, Token.fused]
    rw [hpositions, List.map_cons, List.map_append]
    exact (ih.trans (List.sublist_append_right _ _)).cons_cons _

/-- **The leaves of a program that was read stand one behind the other.** -/
theorem ordered_of_ofText {text : List Char} (h : (ofText standard text).error = none) :
    Binding.Ordered (Binding.values (ofText standard text).nodes) := by
  obtain ⟨-, items, hitems, hts, hns⟩ := units_of_ofText h
  have hsub := positionsEach_items_sublist fun i hi => (hitems i hi).positions_sublist
  rw [← hts, ← hns] at hsub
  rw [Binding.Ordered, Binding.places_values]
  have hwords : (words (Scan.ofText standard text).tokens).Sublist (Scan.ofText standard text).tokens :=
    List.filter_sublist
  refine List.Pairwise.sublist (hsub.trans (hwords.map Token.pos)) ?_
  rw [List.pairwise_map]
  exact (Cursor.scan_pairwise_before (by decide) (Cursor.start text)).2

end Reading
end QuasiScript
