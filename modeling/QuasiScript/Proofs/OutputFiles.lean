import Mathlib
import QuasiScript.Command.File
import QuasiScript.Proofs.AddedFiles

/-!
# Where code is written

A command that compiles a file and is given no name for the code writes it to the path of the file with the extension
`.js`. A path that can be written is that of the file its absolute form names (`FileSystem.absolute_of_writable`), and the
two paths have one absolute form exactly if `.js` is the extension of the source as well
(`FileSystem.absolute_withExtension_iff`): otherwise the last part becomes another one, or one is added. So the source is
kept unless it has the extension of the code, and then it is overwritten (`Command.compileCommand_source`). The code is
written before it is run, so no engine and no failure of a run makes a difference.
-/
namespace QuasiScript
namespace Path

theorem resolveParts_concat (base ps : List String) (part : String) :
    resolveParts base (ps ++ [part]) = resolveParts.step (resolveParts base ps) part := List.foldl_concat ..

theorem parts_slash (cs : List Char) : parts ('/' :: cs) = "" :: parts cs := by
  unfold parts
  rw [← List.nil_append ('/' :: cs), List.splitOn_append_cons_self]
  rfl

theorem parts_name {dirs name : List Char} (hdirs : dirs = [] ∨ ∃ d, dirs = d ++ ['/']) (hname : '/' ∉ name) :
    parts (dirs ++ name) = (parts dirs).dropLast ++ [String.ofList name] := by
  unfold parts
  rcases hdirs with rfl | ⟨d, rfl⟩
  · rw [List.nil_append, List.splitOn_eq_singleton hname]
    rfl
  · rw [List.append_assoc, List.singleton_append, List.splitOn_append_cons_self, List.splitOn_append_cons_self,
      List.splitOn_eq_singleton hname]
    simp

/-- Behind its part without some character a text goes on with that character, or it ends. -/
theorem exists_eq_takeWhile_append (c : Char) (cs : List Char) : ∃ rest, cs = cs.takeWhile (· != c) ++ rest ∧
    c ∉ cs.takeWhile (· != c) ∧ (rest = [] ∨ ∃ more, rest = c :: more) := by
  refine ⟨cs.dropWhile (· != c), List.takeWhile_append_dropWhile.symm, fun h => ?_, ?_⟩
  · have := List.mem_takeWhile_imp h
    simp at this
  · have hnot := List.head?_dropWhile_not (· != c) cs
    cases hrest : cs.dropWhile (· != c) with
    | nil => exact .inl rfl
    | cons d more =>
      rw [hrest] at hnot
      have hd : d = c := by simpa using hnot
      exact .inr ⟨more, by rw [hd]⟩

/-- **A path ends in its extension.** Before it stand the directories, each with its slash, and the rest of the last
part. -/
theorem exists_eq_append_extension (path : List Char) : ∃ dirs stem, path = dirs ++ (stem ++ extension path) ∧
    '/' ∉ stem ++ extension path ∧ (dirs = [] ∨ ∃ d, dirs = d ++ ['/']) := by
  obtain ⟨back, hback, hslash, hdirs⟩ := exists_eq_takeWhile_append '/' path.reverse
  have hstem : ∃ stem, (path.reverse.takeWhile (· != '/')).reverse = stem ++ extension path := by
    unfold extension
    generalize path.reverse.takeWhile (· != '/') = name
    dsimp only
    split
    · next hmem =>
      obtain ⟨rest, hrest, hdot, rfl | ⟨more, rfl⟩⟩ := exists_eq_takeWhile_append '.' name
      · rw [List.append_nil] at hrest
        exact absurd (hrest ▸ hmem) hdot
      · refine ⟨more.reverse, ?_⟩
        conv_lhs => rw [hrest]
        simp
    · exact ⟨name.reverse, (List.append_nil _).symm⟩
  obtain ⟨stem, hstem⟩ := hstem
  refine ⟨back.reverse, stem, ?_, ?_, ?_⟩
  · rw [← hstem, ← List.reverse_append, ← hback, List.reverse_reverse]
  · rw [← hstem, List.mem_reverse]
    exact hslash
  · rcases hdirs with rfl | ⟨more, rfl⟩
    · exact .inl rfl
    · exact .inr ⟨more.reverse, List.reverse_cons⟩

theorem toList_withExtension (path ext : String) {dirs stem : List Char}
    (h : path.toList = dirs ++ (stem ++ extension path.toList)) :
    (withExtension path ext).toList = dirs ++ (stem ++ ext.toList) := by
  have htake : path.toList.take (path.toList.length - (extension path.toList).length) = dirs ++ stem := by
    obtain ⟨own, hown⟩ : ∃ own, extension path.toList = own := ⟨_, rfl⟩
    rw [hown] at h ⊢
    rw [h, ← List.append_assoc, List.length_append, Nat.add_sub_cancel]
    exact List.take_left
  unfold withExtension
  rw [String.toList_append, String.toList_ofList, htake, List.append_assoc]

/-- A path that has an extension does not change when it is given it. -/
theorem withExtension_self {path ext : String} (h : extension path.toList = ext.toList) :
    withExtension path ext = path := by
  obtain ⟨dirs, stem, hpath, -⟩ := exists_eq_append_extension path.toList
  have hsame := toList_withExtension path ext hpath
  rw [← h, ← hpath] at hsame
  exact String.toList_inj.1 hsame

theorem step_eq_or_length_le (around : List String) (part : String) :
    resolveParts.step around part = around ++ [part] ∨ (resolveParts.step around part).length ≤ around.length := by
  unfold resolveParts.step
  split_ifs
  · exact .inr le_rfl
  · exact .inr (by simp)
  · exact .inl rfl

/-- A last part with the extension `.js` is a name and no way to a directory. -/
theorem step_extension (around : List String) (stem : List Char) :
    resolveParts.step around (String.ofList (stem ++ ".js".toList)) =
      around ++ [String.ofList (stem ++ ".js".toList)] := by
  have hne : ∀ s : String, s.toList.length < 3 → String.ofList (stem ++ ".js".toList) ≠ s := by
    rintro s hs rfl
    rw [String.toList_ofList, List.length_append] at hs
    exact absurd hs (by simp)
  unfold resolveParts.step
  rw [if_neg (not_or.2 ⟨hne "" (by decide), hne "." (by decide)⟩), if_neg (hne ".." (by decide))]

end Path

namespace FileSystem
variable {fs : FileSystem} {path : String} {q : List String}

/-! ## The file that a path names -/

theorem absolute_eq (fs : FileSystem) (path : String) : fs.absolute path =
    Path.resolveParts (if path.toList.head? = some '/' then [] else fs.working) (Path.parts path.toList) := by
  unfold absolute
  split
  · next cs hcs =>
    rw [hcs, List.head?_cons, if_pos rfl, Path.parts_slash]
    rfl
  · next hne =>
    rw [if_neg]
    intro hhead
    obtain ⟨cs, hcs⟩ := List.head?_eq_some_iff.1 hhead
    exact hne cs hcs

theorem enter_cases (fs : FileSystem) (here : List String) (part : String) :
    fs.enter here part = .directory (Path.resolveParts.step here part) ∨
      (fs.enter here part).file? = some (Path.resolveParts.step here part) := by
  unfold enter Path.resolveParts.step
  split_ifs <;> simp [Place.file?]

/-- Only directories can be entered, so where a path goes on there was one. -/
theorem follow_cons {place : Place} {part : String} {rest : List String} {here : List String}
    (h : fs.follow (.directory here) (part :: rest) = .ok place) :
    fs.follow (.directory (Path.resolveParts.step here part)) rest = .ok place ∨
      rest = [] ∧ place.file? = some (Path.resolveParts.step here part) := by
  rw [follow] at h
  split at h
  · cases h
  rcases fs.enter_cases here part with hdir | hfile
  · exact .inl (hdir ▸ h)
  · cases rest with
    | nil =>
      rw [follow] at h
      cases h
      exact .inr ⟨rfl, hfile⟩
    | cons next rest =>
      cases hplace : fs.enter here part with
      | directory d => rw [hplace] at hfile; cases hfile
      | file p => rw [hplace] at h; cases h
      | vacant p => rw [hplace] at h; cases h

/-- **A path leads to the file that its parts name.** -/
theorem eq_resolveParts_of_follow {place : Place} (hq : place.file? = some q) : ∀ {rest here : List String},
    fs.follow (.directory here) rest = .ok place → q = Path.resolveParts here rest := by
  intro rest
  induction rest with
  | nil =>
    intro here h
    rw [follow] at h
    cases h
    cases hq
  | cons part rest ih =>
    intro here h
    rcases follow_cons h with h | ⟨rfl, hplace⟩
    · exact ih h
    · exact Option.some.inj (hq.symm.trans hplace)

/-- A path that ends in a dot leads to no file. -/
theorem file?_of_follow_dot {place : Place} : ∀ {rest here : List String},
    fs.follow (.directory here) (rest ++ ["."]) = .ok place → place.file? = none := by
  intro rest
  induction rest with
  | nil =>
    intro here h
    rw [List.nil_append, follow, if_neg (by decide), enter, if_pos (.inr rfl), follow] at h
    cases h
    rfl
  | cons part rest ih =>
    intro here h
    rcases follow_cons h with h | ⟨hnil, -⟩
    · exact ih h
    · simp at hnil

theorem eq_resolveParts_of_written {place : Place} {here ps : List String} (hq : place.file? = some q)
    (h : fs.follow (.directory here) (writtenParts ps) = .ok place) : q = Path.resolveParts here ps := by
  unfold writtenParts at h
  dsimp only at h
  split at h
  · rw [file?_of_follow_dot h] at hq
    cases hq
  · exact eq_resolveParts_of_follow hq h

/-- **A path that can be written is that of the file its absolute form names.** -/
theorem absolute_of_writable (h : fs.writable path = .ok q) : q = fs.absolute path := by
  obtain ⟨place, hresolve, hq⟩ := writable_eq_ok_iff.1 h
  unfold resolve at hresolve
  unfold absolute
  split at hresolve
  · cases hresolve
  split at hresolve
  · cases hresolve
  · next cs hcs =>
    rw [hcs]
    exact eq_resolveParts_of_written hq hresolve
  · next hne =>
    split
    · next cs hcs => exact absurd hcs (hne cs)
    · exact eq_resolveParts_of_written hq hresolve

/-- The file that a path names lies at its last part, in what the text before it says. -/
theorem exists_absolute_eq_step (fs : FileSystem) {dirs : List Char} (hdirs : dirs = [] ∨ ∃ d, dirs = d ++ ['/']) :
    ∃ around, ∀ (path : String) (name : List Char), path.toList = dirs ++ name → '/' ∉ name →
      fs.absolute path = Path.resolveParts.step around (String.ofList name) := by
  refine ⟨Path.resolveParts (if dirs.head? = some '/' then [] else fs.working) (Path.parts dirs).dropLast,
    fun path name hpath hname => ?_⟩
  have hhead : (dirs ++ name).head? = some '/' ↔ dirs.head? = some '/' := by
    rcases hdirs with rfl | ⟨d, rfl⟩
    · constructor
      · intro h
        exact absurd (List.mem_of_head? h) hname
      · intro h
        cases h
    · cases d <;> simp
  rw [absolute_eq, hpath, Path.parts_name hdirs hname, Path.resolveParts_concat]
  simp only [hhead]

/-- **Another extension means another file.** -/
theorem absolute_withExtension_iff (fs : FileSystem) (path : String) :
    fs.absolute (Path.withExtension path ".js") = fs.absolute path ↔ Path.extension path.toList = ".js".toList := by
  obtain ⟨dirs, stem, hpath, hslash, hdirs⟩ := Path.exists_eq_append_extension path.toList
  obtain ⟨around, habsolute⟩ := fs.exists_absolute_eq_step hdirs
  have hstem : '/' ∉ stem ++ ".js".toList := by
    rw [List.mem_append, not_or] at hslash ⊢
    exact ⟨hslash.1, by decide⟩
  rw [habsolute _ _ (Path.toList_withExtension path ".js" hpath) hstem, habsolute _ _ hpath hslash, Path.step_extension]
  constructor
  · intro h
    rcases Path.step_eq_or_length_le around (String.ofList (stem ++ Path.extension path.toList)) with hname | hshort
    · rw [hname] at h
      have hlast := List.singleton_inj.1 (List.append_cancel_left h)
      exact (List.append_cancel_left (String.ofList_inj.1 hlast)).symm
    · rw [← h, List.length_append, List.length_singleton] at hshort
      omega
  · intro h
    rw [h, Path.step_extension]

end FileSystem

namespace Command
variable {fs : FileSystem} {input output : String} {options : Options}

/-! ## The files after a command -/

/-- A file can be read, and what it holds is accepted and compiled. -/
def CompilesTo (fs : FileSystem) (input code : String) : Prop :=
  ∃ source, fs.readSource input = .ok source ∧
    (Compilation.ofText .standard .initial input source.toList).result = .ok code

theorem CompilesTo.eq {code code' : String} (h : CompilesTo fs input code) (h' : CompilesTo fs input code') :
    code = code' := by
  obtain ⟨source, hsource, hcode⟩ := h
  obtain ⟨source', hsource', hcode'⟩ := h'
  obtain rfl : source = source' := Except.ok.inj (hsource.symm.trans hsource')
  exact Except.ok.inj (hcode.symm.trans hcode')

/-- Compiling a file gives code and writes it, or it leaves all files as they are. -/
theorem compileFile_cases (fs : FileSystem) (input output : String) :
    (∃ code q records, CompilesTo fs input code ∧ fs.writable output = .ok q ∧
      compileFile fs input output = ⟨.ok code, fs.set q code, records⟩) ∨
    (∃ e records, compileFile fs input output = ⟨.error e, fs, records⟩) ∧
      ¬ ∃ code q, CompilesTo fs input code ∧ fs.writable output = .ok q := by
  unfold compileFile
  split
  · next e hsource =>
    refine .inr ⟨⟨_, _, rfl⟩, ?_⟩
    rintro ⟨code, q, ⟨source, hread, -⟩, -⟩
    cases hsource.symm.trans hread
  next source hsource =>
  dsimp only
  split
  · next e hresult =>
    refine .inr ⟨⟨_, _, rfl⟩, ?_⟩
    rintro ⟨code, q, ⟨source', hread, hcode⟩, -⟩
    obtain rfl : source = source' := Except.ok.inj (hsource.symm.trans hread)
    cases hresult.symm.trans hcode
  next code hcode =>
  unfold FileSystem.write
  cases hq : fs.writable output with
  | error e =>
    refine .inr ⟨⟨_, _, rfl⟩, ?_⟩
    rintro ⟨code, q, -, hok⟩
    cases hok
  | ok q => exact .inl ⟨code, q, _, ⟨source, hsource, hcode⟩, rfl, rfl⟩

/-- A command writes code, whatever comes of running it, or it fails and leaves all files as they are. -/
theorem compileCommand_cases (engine : Engine) (program : String) {arguments : List String} (fs : FileSystem)
    (hparse : parse fileFlags arguments = .ok options) :
    ((∃ l, fileLogger options = .ok l) ∧ ∃ code q, CompilesTo fs (options.text "in" "") code ∧
      fs.writable (outputPath options) = .ok q ∧
      (compileCommand engine program arguments fs).files = fs.set q code) ∨
    ((compileCommand engine program arguments fs).exitCode ≠ 0 ∧
      (compileCommand engine program arguments fs).files = fs) ∧
      ¬ ((∃ l, fileLogger options = .ok l) ∧ options.text "in" "" ≠ "" ∧
        ∃ code q, CompilesTo fs (options.text "in" "") code ∧ fs.writable (outputPath options) = .ok q) := by
  unfold compileCommand
  rw [hparse]
  dsimp only
  split
  · next e hlogger =>
    refine .inr ⟨⟨by simp, rfl⟩, ?_⟩
    rintro ⟨⟨l, hl⟩, -⟩
    cases hlogger.symm.trans hl
  next l hlogger =>
  split
  · next hin => exact .inr ⟨⟨by simp, rfl⟩, fun h => h.2.1 hin⟩
  rcases compileFile_cases fs (options.text "in" "") (outputPath options) with
    ⟨code, q, records, hcode, hq, h⟩ | ⟨⟨e, records, h⟩, hnone⟩
  · rw [h]
    refine .inl ⟨⟨l, hlogger⟩, code, q, hcode, hq, ?_⟩
    dsimp only
    split
    · split
      · rfl
      · rfl
    · rfl
  · rw [h]
    exact .inr ⟨⟨by simp, rfl⟩, fun h => hnone h.2.2⟩

/-- **A command keeps its source, unless the source has the extension of the code.** Without code for the file that the
arguments name, no file changes. If they name no file for the code, then the only file that may change is the one that
the path of the source names with the extension `.js`. This is the source itself, and it changes, exactly if `.js` is its
own extension, logging can be set up, its path can be written, and its code is other than what it holds. -/
theorem compileCommand_source (engine : Engine) (program : String) {arguments : List String} (fs : FileSystem)
    (hparse : parse fileFlags arguments = .ok options) (hin : options.text "in" "" = input) :
    let after := compileCommand engine program arguments fs
    ((¬ ∃ code, CompilesTo fs input code) → after.exitCode ≠ 0 ∧ after.files = fs) ∧
    (options.text "out" "" = "" →
      (∀ q, q ≠ fs.absolute (Path.withExtension input ".js") → after.files.contents? q = fs.contents? q) ∧
      (after.files.contents? (fs.absolute input) ≠ fs.contents? (fs.absolute input) ↔
        Path.extension input.toList = ".js".toList ∧ (∃ l, fileLogger options = .ok l) ∧
          (∃ q, fs.writable input = .ok q) ∧
          ∃ code, CompilesTo fs input code ∧ fs.contents? (fs.absolute input) ≠ some code)) := by
  subst hin
  intro after
  rcases compileCommand_cases engine program fs hparse with
    ⟨hlogger, code, q, hcode, hq, hfiles⟩ | ⟨⟨hexit, hfiles⟩, hnone⟩
  · refine ⟨fun h => absurd ⟨code, hcode⟩ h, fun hout => ?_⟩
    have hpath : outputPath options = Path.withExtension (options.text "in" "") ".js" := if_pos hout
    have hfile := FileSystem.absolute_of_writable hq
    change after.files = _ at hfiles
    rw [hfile] at hfiles
    rw [hpath] at hfiles hq
    refine ⟨fun q hne => by rw [hfiles, FileSystem.contents?_set, if_neg hne], ?_⟩
    rw [hfiles, FileSystem.contents?_set]
    split
    · next hsame =>
      have hext := (fs.absolute_withExtension_iff _).1 hsame.symm
      rw [Path.withExtension_self hext] at hq
      constructor
      · intro hne
        exact ⟨hext, hlogger, ⟨q, hq⟩, code, hcode, Ne.symm hne⟩
      · rintro ⟨-, -, -, code', hcode', hne⟩ h
        exact hne (h.symm.trans (congrArg some (hcode.eq hcode')))
    · next hother =>
      exact iff_of_false (fun h => h rfl) fun h => hother ((fs.absolute_withExtension_iff _).2 h.1).symm
  · change after.files = fs at hfiles
    rw [hfiles]
    refine ⟨fun _ => ⟨hexit, rfl⟩, fun hout => ⟨fun _ _ => rfl, iff_of_false (fun h => h rfl) ?_⟩⟩
    rintro ⟨hext, hlogger, ⟨q, hq⟩, code, hcode, -⟩
    have hpath : outputPath options = options.text "in" "" := (if_pos hout).trans (Path.withExtension_self hext)
    have hnamed : options.text "in" "" ≠ "" := by
      intro hempty
      rw [hempty] at hext
      exact absurd hext (by decide)
    exact hnone ⟨hlogger, hnamed, code, q, hcode, hpath ▸ hq⟩

def scripts : FileSystem := ⟨["w"], [(["w", "a.js"], "(+ 1 2)"), (["w", "lib", "b.js"], "(f)")], []⟩

theorem compilesTo_scripts : CompilesTo scripts "a.js" "1 + 2;\n" ∧ CompilesTo scripts "lib/../lib/b.js" "f();\n" :=
  ⟨⟨"(+ 1 2)", by decide +kernel, by cbv⟩, ⟨"(f)", by decide +kernel, by cbv⟩⟩

/-- The source may be named by a way around, and its code may fail when it is run. -/
theorem compileCommand_source_detour :
    let failing : Engine := ⟨Unit, (), fun _ _ _ => (⟨"", .error "f is not defined"⟩, ())⟩
    (compileCommand failing "quasiscript" ["-run", "-in=lib/../lib/b.js"] scripts).files.contents? ["w", "lib", "b.js"] ≠
      scripts.contents? ["w", "lib", "b.js"] := by
  intro failing
  have hparse : parse fileFlags ["-run", "-in=lib/../lib/b.js"] =
      .ok ⟨[("in", "lib/../lib/b.js"), ("run", "true")], []⟩ := by cbv
  have hin : Options.text ⟨[("in", "lib/../lib/b.js"), ("run", "true")], []⟩ "in" "" = "lib/../lib/b.js" := by decide
  have hfile : scripts.absolute "lib/../lib/b.js" = ["w", "lib", "b.js"] := by decide +kernel
  have hq : scripts.writable "lib/../lib/b.js" = .ok ["w", "lib", "b.js"] := by decide +kernel
  have hchanged := ((compileCommand_source failing "quasiscript" scripts hparse hin).2 (by decide)).2
  rw [hfile] at hchanged
  exact hchanged.2 ⟨by decide, ⟨_, rfl⟩, ⟨_, hq⟩, _, compilesTo_scripts.2, by decide⟩

/-- Code takes the place of its source. -/
theorem compileCommand_overwrites :
    scripts.contents? ["w", "a.js"] = some "(+ 1 2)" ∧
      (compileCommand .idle "quasiscript" ["-in", "a.js"] scripts).files.contents? ["w", "a.js"] = some "1 + 2;\n" := by
  have hparse : parse fileFlags ["-in", "a.js"] = .ok ⟨[("in", "a.js")], []⟩ := by cbv
  have hpath : outputPath ⟨[("in", "a.js")], []⟩ = "a.js" := by cbv
  have hq : scripts.writable (outputPath ⟨[("in", "a.js")], []⟩) = .ok ["w", "a.js"] := by
    rw [hpath]
    decide +kernel
  rcases compileCommand_cases .idle "quasiscript" scripts hparse with ⟨-, code, q, hcode, hq', hfiles⟩ | ⟨-, hnone⟩
  · obtain rfl := Except.ok.inj (hq.symm.trans hq')
    obtain rfl : "1 + 2;\n" = code := compilesTo_scripts.1.eq hcode
    rw [hfiles, FileSystem.contents?_set]
    exact ⟨by decide, by simp⟩
  · exact absurd ⟨⟨_, rfl⟩, by decide, _, _, compilesTo_scripts.1, hq⟩ hnone

end Command
end QuasiScript
