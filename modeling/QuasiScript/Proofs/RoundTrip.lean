import QuasiScript.Proofs.ReaderState

/-!
# Reading undoes unparsing

A text spells some nodes if it is read as them wherever it stands, before anything that ends an atom (`Cursor.Spells`).
The surface of a node all of whose leaves are readable spells that node, by induction on the node (`spells_surface`).
Since everything that is read is readable, what is read from any text is read back from its own surface.
-/
namespace QuasiScript
open Dialect (standard)

namespace Node

def forget (n : Node) : Node := n.retoken fun _ => ⟨.endOfStream, "", .start⟩

theorem forget_list {es es' : List Node} (h : es.map forget = es'.map forget) (t t' : Token) :
    (list es t).forget = (list es' t').forget := by
  simp only [forget, retoken, retokens_eq_map]
  exact congrArg (list · _) h

end Node

namespace Reader

def placeAll (r : Reader) (ns : List Node) : Reader := ns.foldl (fun r n => place r.finished r.stack n) r

theorem placeAll_append (r : Reader) (ms ns : List Node) : r.placeAll (ms ++ ns) = (r.placeAll ms).placeAll ns :=
  List.foldl_append

theorem place_run (finished : List Node) : ∀ (stack : List Pending) (n : Node), (place finished stack n).run = none
  | [], _ => rfl
  | .bracket _ _ :: _, _ => rfl
  | .sugar _ _ :: stack, _ => place_run finished stack _

theorem placeAll_run : ∀ (ns : List Node) {r : Reader}, r.run = none → (r.placeAll ns).run = none
  | [], _, h => h
  | n :: ns, r, _ => placeAll_run ns (place_run r.finished r.stack n)

theorem placeAll_bracket (finished : List Node) (opening : Token) (stack : List Pending) :
    ∀ ns es : List Node, placeAll ⟨finished, .bracket opening es :: stack, none⟩ ns =
      ⟨finished, .bracket opening (ns.reverse ++ es) :: stack, none⟩
  | [], _ => rfl
  | n :: ns, es => by
    have := placeAll_bracket finished opening stack ns (n :: es)
    simpa [placeAll, place] using this

theorem placeAll_idle : ∀ ns finished : List Node, placeAll ⟨finished, [], none⟩ ns = ⟨ns.reverse ++ finished, [], none⟩
  | [], _ => rfl
  | n :: ns, finished => by
    have := placeAll_idle ns (n :: finished)
    simpa [placeAll, place] using this

end Reader

namespace Cursor

/-- The text is read as the nodes wherever it stands, before anything that may follow an atom. -/
def Spells (text : List Char) (ns : List Node) : Prop :=
  ∀ (rest : List Char) (p : Position), Stops rest → ∃ (ts : List Token) (ns' : List Node),
    (Cursor.mk (text ++ rest) p).scan standard = ((Cursor.mk rest (p.after text)).scan standard).prepend ts ∧
      ns'.map Node.forget = ns.map Node.forget ∧
      ∀ r : Reader, r.run = none → r.advance standard ts = .ok (r.placeAll ns')

theorem spells_nil : Spells [] [] := fun _ _ _ => ⟨[], [], rfl, rfl, fun _ _ => rfl⟩

/-- Two texts with whitespace between them spell their nodes in a row. -/
theorem Spells.append {s t : List Char} {ms ns : List Node} (hs : Spells s ms) (ht : Spells t ns) {w : Char}
    (hw : standard.isWhitespace w = true) : Spells (s ++ w :: t) (ms ++ ns) := by
  intro rest p hrest
  have hstop : Stops (w :: (t ++ rest)) := by
    intro c hc
    cases hc
    simp [endsAtom, hw]
  obtain ⟨ts, ms', hscan, hms, hadv⟩ := hs (w :: (t ++ rest)) p hstop
  obtain ⟨us, ns', hscan', hns, hadv'⟩ := ht rest ((p.after s).step w) hrest
  refine ⟨ts ++ us, ms' ++ ns', ?_, by rw [List.map_append, List.map_append, hms, hns], fun r hr => ?_⟩
  · have hpos : p.after (s ++ w :: t) = ((p.after s).step w).after t := by
      rw [Position.after_append, Position.after_cons]
    rw [List.append_assoc, List.cons_append, hscan, scan_whitespace standard_solid hw, hscan', hpos,
      Scan.prepend_prepend]
  · rw [Reader.advance_append, hadv r hr, Reader.placeAll_append]
    exact hadv' _ (Reader.placeAll_run ms' hr)

/-! ## Leaves -/

/-- One character of a surface is read as that character, escaped or not. -/
theorem stringBody_escapeSurface_append (c : Char) (cs : List Char) (p : Position) :
    stringBody '"' '\\' (Value.escapeSurface c ++ cs) p =
      (stringBody '"' '\\' cs (p.after (Value.escapeSurface c))).cons c := by
  unfold Value.escapeSurface
  split
  · exact stringBody_escape (by decide) '\\' cs p
  · exact stringBody_escape (by decide) '"' cs p
  · exact stringBody_escape (by decide) 'n' cs p
  · exact stringBody_escape (by decide) 't' cs p
  · rename_i hescape hquote _ _
    exact stringBody_char hquote hescape cs p

theorem stringBody_flatMap_escapeSurface (rest : List Char) : ∀ (s : List Char) (p : Position),
    stringBody '"' '\\' (s.flatMap Value.escapeSurface ++ '"' :: rest) p =
      ⟨s, ⟨rest, p.after (s.flatMap Value.escapeSurface ++ ['"'])⟩, true⟩
  | [], p => stringBody_delimiter rest p
  | c :: s, p => by
    rw [List.flatMap_cons, List.append_assoc, List.append_assoc, stringBody_escapeSurface_append,
      stringBody_flatMap_escapeSurface rest s, Position.after_append p (Value.escapeSurface c)]
    rfl

theorem scan_string (s : String) (rest : List Char) (p : Position) :
    (Cursor.mk ((Value.quoteSurface s).toList ++ rest) p).scan standard =
      ((Cursor.mk rest (p.after (Value.quoteSurface s).toList)).scan standard).prepend [⟨.string, s, p⟩] := by
  have hread : readToken standard p '"' (s.toList.flatMap Value.escapeSurface ++ '"' :: rest) =
      (⟨⟨.string, s, p⟩, none⟩, ⟨rest, p.after (Value.quoteSurface s).toList⟩) := by
    have hbody := stringBody_flatMap_escapeSurface rest s.toList (p.step '"')
    show readString standard p '"' _ = _
    simp only [readString, show standard.stringDelimiter = '"' from rfl, show standard.escape = '\\' from rfl, hbody]
    simp [Value.quoteSurface]
  have hcat : (Value.quoteSurface s).toList ++ rest = '"' :: (s.toList.flatMap Value.escapeSurface ++ '"' :: rest) := by
    simp [Value.quoteSurface]
  rw [hcat]
  exact scan_cons standard_solid (by decide) hread

theorem spells_leaf {v : Value} (hv : v.Readable) (t : Token) : Spells v.surface.toList [.leaf v t] := by
  intro rest p hrest
  rcases Value.isAtom_surface hv with ⟨s, rfl⟩ | ⟨hne, hall, hval⟩
  · exact ⟨_, [.leaf (.string s) ⟨.string, s, p⟩], scan_string s rest p, rfl, fun r hr => by
      simp only [Reader.advance, Reader.step_of_idle hr]
      rfl⟩
  · have hscan := scan_atom (fun h => hne (String.toList_eq_nil_iff.1 h)) hall hrest p
    rw [String.ofList_toList] at hscan
    refine ⟨_, [.leaf v ⟨.atom, v.surface, p⟩], hscan, rfl, fun r hr => ?_⟩
    simp only [Reader.advance, Reader.step_of_idle hr, Reader.accept, hval]
    rfl

/-! ## Lists -/

/-- Brackets around a text spell a list of its nodes. -/
theorem Spells.list {s : List Char} {es : List Node} (hs : Spells s es) (t : Token) :
    Spells ('(' :: (s ++ [')'])) [.list es t] := by
  intro rest p hrest
  have hstop : Stops (')' :: rest) := by
    intro c hc
    cases hc
    decide
  obtain ⟨ts, es', hscan, hes, hadv⟩ := hs (')' :: rest) (p.step '(') hstop
  refine ⟨⟨.openBracket, "(", p⟩ :: (ts ++ [⟨.closeBracket, ")", (p.step '(').after s⟩]),
    [.list es' ⟨.openBracket, "(", p⟩], ?_, ?_, fun r hr => ?_⟩
  · have hpos : p.after ('(' :: (s ++ [')'])) = ((p.step '(').after s).step ')' := by
      rw [Position.after_cons, Position.after_append]
      rfl
    rw [List.cons_append, List.append_assoc, scan_open '(' (by decide), List.singleton_append, hscan,
      scan_close ')' (by decide), hpos, Scan.prepend_prepend, Scan.prepend_prepend]
    rfl
  · simp only [List.map_cons, List.map_nil, Node.forget_list hes _ t]
  · have hclosed : Reader.closedElements standard ⟨.openBracket, "(", p⟩ es'.reverse = es' := by
      have hg : standard.bracketSugar.get? "(" = none := by decide
      simp only [Reader.closedElements, hg, List.reverse_reverse]
    have hclose : Reader.step standard ⟨r.finished, .bracket ⟨.openBracket, "(", p⟩ es'.reverse :: r.stack, none⟩
        ⟨.closeBracket, ")", (p.step '(').after s⟩ =
          .ok (Reader.place r.finished r.stack (.list es' ⟨.openBracket, "(", p⟩)) := by
      have hm : ")" = standard.matching "(" := by decide
      rw [Reader.step_close rfl hm, hclosed]
    rw [Reader.advance_cons (Reader.step_open hr rfl), Reader.advance_append, hadv _ rfl, Reader.placeAll_bracket,
      List.append_nil]
    exact Reader.advance_cons hclose []

mutual

/-- **The surface of a readable node spells it.** -/
theorem spells_surface : ∀ {n : Node}, n.Readable → Spells n.surface.toList [n]
  | .leaf _ t, h => spells_leaf h t
  | .list _ t, h => by
    have := (spells_surfaces (w := ' ') (by decide) h).list t
    simpa [Node.surface] using this

/-- Readable nodes are spelt by their surfaces with whitespace between them. -/
theorem spells_surfaces {w : Char} (hw : standard.isWhitespace w = true) : ∀ {ns : List Node}, Node.AllReadable ns →
    Spells ([w].intercalate ((Node.surfaces ns).map String.toList)) ns
  | [], _ => spells_nil
  | [_], h => by
    simpa [Node.surfaces] using spells_surface h.1
  | n :: m :: ns, h => by
    have := (spells_surface h.1).append (spells_surfaces hw h.2) hw
    simpa [Node.surfaces] using this

end

end Cursor

namespace Reading
open Node (unparse)

/-- The text of readable nodes is read without error, as these nodes but for the tokens. -/
theorem ofText_unparse {ns : List Node} (h : ∀ n ∈ ns, n.Readable) :
    (ofText standard (unparse ns).toList).error = none ∧
      (ofText standard (unparse ns).toList).nodes.map Node.forget = ns.map Node.forget := by
  have htext : (unparse ns).toList = ['\n'].intercalate ((Node.surfaces ns).map String.toList) := by simp [unparse]
  have hspells := Cursor.spells_surfaces (w := '\n') (by decide) (Node.allReadable_iff.2 h)
  obtain ⟨ts, ns', hscan, hns, hadv⟩ := hspells [] .start (by simp [Cursor.Stops])
  have hend := fun q => Cursor.scan_of_atEnd (d := standard) (c := ⟨[], q⟩) rfl
  rw [← htext, List.append_nil, hend] at hscan
  have hread : ofText standard (unparse ns).toList = ⟨ns', none⟩ := by
    have hr := hadv Reader.start rfl
    rw [Reader.start, Reader.placeAll_idle, List.append_nil] at hr
    have hs : Scan.ofText standard (unparse ns).toList = _ := hscan
    simp only [ofText, hs, Scan.prepend_tokens, Scan.prepend_ending]
    rw [Reader.start, Reader.readAll_of_advance hr, Reader.readAll]
    simp [Reader.finish, Reader.isIdle]
  rw [hread]
  exact ⟨rfl, hns⟩

/-- **All nodes that are read from a text are readable**, also before an error. -/
theorem ofText_readable (text : List Char) : ∀ n ∈ (ofText standard text).nodes, n.Readable :=
  Reader.readAll_readable _ Reader.start_sound
    (Cursor.scan_regular Cursor.standard_solid (Cursor.start text))

theorem unparse_congr {ms ns : List Node} (h : ms.map Node.forget = ns.map Node.forget) : unparse ms = unparse ns := by
  have hs : ∀ ns : List Node, Node.surfaces (ns.map Node.forget) = Node.surfaces ns := by
    intro ns
    have := Node.surfaces_retokens (fun _ => ⟨.endOfStream, "", .start⟩) ns
    rwa [Node.retokens_eq_map] at this
  rw [unparse, unparse, ← hs ms, ← hs ns, h]

/-- **Reading undoes unparsing.** Nodes whose leaves are readable are read back from their text, without error and with
the same structure and values. And what is read from any text, even before an error, is readable: unparsing it, reading
that and unparsing again gives the same text. -/
theorem ofText_unparse_and_readable :
    (∀ ns : List Node, (∀ n ∈ ns, n.Readable) →
      (ofText standard (unparse ns).toList).error = none ∧
        (ofText standard (unparse ns).toList).nodes.map Node.forget = ns.map Node.forget) ∧
    ∀ text : List Char,
      let nodes := (ofText standard text).nodes
      (∀ n ∈ nodes, n.Readable) ∧ unparse (ofText standard (unparse nodes).toList).nodes = unparse nodes := by
  refine ⟨fun ns h => ofText_unparse h, fun text => ⟨ofText_readable text, ?_⟩⟩
  exact unparse_congr (ofText_unparse (ofText_readable text)).2

theorem ofText_unparse_quotes :
    let t : Token := ⟨.atom, "", .start⟩
    let ns : List Node := [.list [.leaf (.symbol "say") t, .leaf (.string "a \"b\"\n") t,
      .list [.leaf (standard.atomValue "-0x1F") t, .leaf (.boolean true) t] t] t, .leaf (.constant "NaN" "NaN") t]
    (∀ n ∈ ns, n.Readable) ∧ (ofText standard (unparse ns).toList).error = none ∧
      (ofText standard (unparse ns).toList).nodes.map Node.forget = ns.map Node.forget := by
  intro t ns
  have h : ∀ n ∈ ns, n.Readable := by decide
  exact ⟨h, ofText_unparse_and_readable.1 ns h⟩

end Reading
end QuasiScript
