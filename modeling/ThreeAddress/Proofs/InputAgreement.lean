import Mathlib.Logic.Relation
import ThreeAddress.CommandLine.Arguments
import ThreeAddress.Proofs.AllOrNothing

/-!
# Statements from a file and from the arguments

A file of statements and the pieces between its line feeds, given as arguments after `--`, come to
the same report: a carriage return before a line feed is lost with the blanks, and so is an empty
line at the end. For the same reason blanks may come and go inside the statements given so.

Both facts are about whole runs, from the arguments on. They hold of every way to read arguments in
which the file option and `--` mean what they should (`ReadsInput`), and of every way to write the
messages. The arguments are read here in such a way; what those after the action's name come to is
read off the state in which that name was met.
-/
namespace ThreeAddress.CommandLine

open Text

/-! ## What is left of texts -/

/-- The texts that are not blank, without their blanks. -/
def remains (texts : List (List Char)) : List (List Char) :=
  (texts.map stripBlanks).filter (!·.isEmpty)

theorem statementsOf_congr {texts texts' : List (List Char)} (h : remains texts = remains texts') :
    statementsOf texts = statementsOf texts' := by
  unfold remains at h
  simp only [statementsOf, h]

theorem remains_append (texts texts' : List (List Char)) :
    remains (texts ++ texts') = remains texts ++ remains texts' := by
  simp [remains]

theorem stripBlanks_append (left right : List Char) :
    stripBlanks (left ++ right) = stripBlanks left ++ stripBlanks right :=
  List.filter_append ..

theorem stripBlanks_cons_of_blank {c : Char} (h : isBlank c = true) (text : List Char) :
    stripBlanks (c :: text) = stripBlanks text := by
  simp [stripBlanks, h]

theorem stripBlanks_dropReturn (line : List Char) :
    stripBlanks (dropReturn line) = stripBlanks line := by
  unfold dropReturn
  split
  · next hlast =>
    obtain ⟨start, rfl⟩ := List.getLast?_eq_some_iff.mp hlast
    have hreturn : isBlank '\r' = true := by decide
    rw [List.dropLast_concat, stripBlanks_append, stripBlanks_cons_of_blank hreturn]
    exact (List.append_nil _).symm
  · rfl

theorem remains_map_dropReturn (texts : List (List Char)) :
    remains (texts.map dropReturn) = remains texts := by
  simp [remains, Function.comp_def, stripBlanks_dropReturn]

theorem remains_filter_not_isEmpty (texts : List (List Char)) :
    remains (texts.filter (!·.isEmpty)) = remains texts := by
  induction texts with
  | nil => rfl
  | cons text texts ih =>
    cases text with
    | nil => exact ih
    | cons c text =>
      have hsplit := remains_append [c :: text] texts
      rw [← ih] at hsplit
      exact (remains_append [c :: text] _).trans hsplit.symm

/-- Where a line ends differently from a piece, the difference is blank. -/
theorem remains_lines (text : List Char) : remains (lines text) = remains (text.splitOn '\n') := by
  have hne : text.splitOn '\n' ≠ [] := List.splitOn_ne_nil '\n' text
  unfold lines
  generalize text.splitOn '\n' = pieces at hne ⊢
  have hlast : pieces.getLast?.toList = [pieces.getLast hne] := by
    rw [List.getLast?_eq_some_getLast hne]
    rfl
  calc remains (pieces.dropLast.map dropReturn ++ pieces.getLast?.toList.filter (!·.isEmpty))
      = remains pieces.dropLast ++ remains pieces.getLast?.toList := by
        rw [remains_append, remains_map_dropReturn, remains_filter_not_isEmpty]
    _ = remains (pieces.dropLast ++ [pieces.getLast hne]) := by rw [remains_append, hlast]
    _ = remains pieces := by rw [List.dropLast_concat_getLast hne]

/-! ## Blanks inside statements -/

/-- The second list has one blank more, somewhere inside one of its texts. -/
inductive BlankInserted : List String → List String → Prop
  | intro (before after : List String) (left right : List Char) (c : Char)
      (hblank : isBlank c = true) :
      BlankInserted (before ++ String.ofList (left ++ right) :: after)
        (before ++ String.ofList (left ++ c :: right) :: after)

theorem BlankInserted.remains_eq {texts texts' : List String} (h : BlankInserted texts texts') :
    remains (texts.map String.toList) = remains (texts'.map String.toList) := by
  obtain ⟨before, after, left, right, c, hblank⟩ := h
  simp [remains, stripBlanks_append, stripBlanks_cons_of_blank hblank]

theorem remains_eq_of_eqvGen {texts texts' : List String}
    (h : Relation.EqvGen BlankInserted texts texts') :
    remains (texts.map String.toList) = remains (texts'.map String.toList) := by
  induction h with
  | rel _ _ hinserted => exact hinserted.remains_eq
  | refl => rfl
  | symm _ _ _ ih => exact ih.symm
  | trans _ _ _ _ _ ih ih' => exact ih.trans ih'

/-! ## Arguments -/

section
variable {name : String} {action : Action} (h : Action.ofName? name = some action)
include h

theorem isOption_of_name : isOption name.toList = false := by
  unfold Action.ofName? at h
  split at h
  case h_5 => cases h
  all_goals rfl

theorem readLevel?_of_name : readLevel? name.toList = none := by
  unfold Action.ofName? at h
  split at h
  case h_5 => cases h
  all_goals rfl

end

namespace Progress

/-- What an argument that does not look like an option means, phase by phase. -/
theorem take_of_not_isOption (p : Progress) {argument : String}
    (h : isOption argument.toList = false) :
    p.take argument =
      match p.phase with
      | .options => (Action.ofName? argument).map fun action => { p with phase := .input action }
      | .level => p.setLevel argument.toList
      | .input _ | .verbatim _ => some (p.addText argument)
      | .path action => p.setPath action argument.toList := by
  unfold take
  cases p.phase with
  | options | input =>
    dsimp only
    split <;> simp_all [isOption]
  | level | path => simp [h]
  | verbatim => rfl

theorem path?_of_setPath {p q : Progress} {action : Action} {value : List Char}
    (h : p.setPath action value = some q) : q.path? = some (String.ofList value) := by
  unfold setPath at h
  split at h
  · rw [← Option.some.inj h]
  · cases h

/-- Behind a command without a file there is no path. -/
theorem of_command?_eq_statements {p : Progress} {verbosity : Verbosity} {action : Action}
    {texts : List String} (h : p.command? = some ⟨verbosity, action, .statements texts⟩) :
    p.path? = none ∧ p.texts.toList = texts := by
  unfold command? at h
  cases hpath : p.path? with
  | none => cases hphase : p.phase <;> simp_all
  | some path => cases hphase : p.phase <;> simp [hpath, hphase] at h

/-- The arguments so far concern the log only, and an action is expected. -/
structure OptionsOnly (p : Progress) : Prop where
  phase : p.phase = .options
  path? : p.path? = none
  texts : p.texts = #[]

/-- A name that completes a command without input was met where an action is expected. -/
theorem optionsOnly_of_take_name {p q : Progress} {name : String} {verbosity : Verbosity}
    {action : Action} (hname : Action.ofName? name = some action) (htake : p.take name = some q)
    (hcommand : q.command? = some ⟨verbosity, action, .statements []⟩) : p.OptionsOnly := by
  obtain ⟨hpath, htexts⟩ := of_command?_eq_statements hcommand
  rw [take_of_not_isOption p (isOption_of_name hname)] at htake
  -- In any other phase the name would be a bad level, or be kept as a path or a text.
  cases hphase : p.phase with
  | options =>
    simp only [hphase, hname, Option.map_some, Option.some.injEq] at htake
    subst htake
    exact ⟨hphase, hpath, Array.toList_eq_nil_iff.mp htexts⟩
  | level => simp [hphase, setLevel, readLevel?_of_name hname] at htake
  | input other | verbatim other =>
    simp only [hphase, Option.some.injEq] at htake
    subst htake
    simp [addText] at htexts
  | path other =>
    simp only [hphase] at htake
    rw [path?_of_setPath htake] at hpath
    cases hpath

theorem foldlM_take_cons {p q : Progress} {argument : String} (h : p.take argument = some q)
    (rest : List String) : (argument :: rest).foldlM take p = rest.foldlM take q := by
  rw [List.foldlM_cons, h]
  rfl

/-- After `--` the arguments are texts, whatever they look like. -/
theorem foldlM_take_verbatim {p : Progress} {action : Action} (hphase : p.phase = .verbatim action)
    (texts : List String) :
    texts.foldlM take p = some { p with texts := p.texts ++ texts.toArray } := by
  induction texts generalizing p with
  | nil => simp
  | cons text texts ih =>
    have htake : p.take text = some (p.addText text) := by simp only [take, hphase]
    have hpush : p.texts.push text ++ texts.toArray = p.texts ++ (text :: texts).toArray := by simp
    rw [foldlM_take_cons htake, ← hpush]
    exact @ih (p.addText text) hphase

theorem take_file {p : Progress} {action : Action} (hphase : p.phase = .input action) :
    p.take "--file" = some { p with phase := .path action } := by
  simp only [take, hphase]
  rfl

theorem take_file_attached {p : Progress} {action : Action} (hphase : p.phase = .input action)
    (path : String) : p.take ("--file=" ++ path) = p.setPath action path.toList := by
  simp only [take, hphase, String.toList_append]
  rfl

theorem setPath_of_none {p : Progress} (h : p.path? = none) (action : Action) {path : String}
    (hpath : path ≠ "") :
    p.setPath action path.toList = some { p with phase := .input action, path? := some path } := by
  simp [setPath, h, hpath]

/-- The verbosity that the arguments so far ask for. -/
def verbosity (p : Progress) : Verbosity := { level := p.level?.getD 1, quiet := p.quiet }

namespace OptionsOnly

variable {p : Progress} (hp : p.OptionsOnly) {name : String} {action : Action}
  (hname : Action.ofName? name = some action)
include hp

include hname in
theorem take_name : p.take name = some { p with phase := .input action } := by
  rw [take_of_not_isOption p (isOption_of_name hname)]
  simp only [hp.phase, hname, Option.map_some]

theorem command?_of_path (action : Action) (path : String) :
    command? { p with phase := .input action, path? := some path } =
      some ⟨p.verbosity, action, .file path⟩ := by
  simp [command?, hp.texts, verbosity]

include hname

theorem bind_file_attached {path : String} (hpath : path ≠ "") :
    ([name, "--file=" ++ path].foldlM take p).bind command? =
      some ⟨p.verbosity, action, .file path⟩ := by
  have hset := setPath_of_none (p := { p with phase := .input action }) hp.path? action hpath
  rw [foldlM_take_cons (hp.take_name hname),
    foldlM_take_cons ((take_file_attached rfl path).trans hset)]
  exact hp.command?_of_path action path

theorem bind_file {path : String} (hpath : path ≠ "") (hoption : isOption path.toList = false) :
    ([name, "--file", path].foldlM take p).bind command? =
      some ⟨p.verbosity, action, .file path⟩ := by
  have hset := setPath_of_none (p := { p with phase := .path action }) hp.path? action hpath
  have htake := (take_of_not_isOption { p with phase := .path action } hoption).trans hset
  rw [foldlM_take_cons (hp.take_name hname), foldlM_take_cons (take_file rfl),
    foldlM_take_cons htake]
  exact hp.command?_of_path action path

theorem bind_verbatim (texts : List String) :
    ((name :: "--" :: texts).foldlM take p).bind command? =
      some ⟨p.verbosity, action, .statements texts⟩ := by
  have hdashes : take { p with phase := .input action } "--" =
      some { p with phase := .verbatim action } := rfl
  rw [foldlM_take_cons (hp.take_name hname), foldlM_take_cons hdashes, foldlM_take_verbatim rfl]
  simp [command?, hp.path?, hp.texts, verbosity]

end OptionsOnly

end Progress

theorem command?_append (first second : List String) :
    command? (first ++ second) =
      (first.foldlM Progress.take {}).bind fun p =>
        (second.foldlM Progress.take p).bind Progress.command? := by
  rw [command?, List.foldlM_append]
  exact Option.bind_assoc ..

/-- Arguments that give a command without input, with the name of its action at their end, have
options for the log before it. -/
theorem exists_optionsOnly {options : List String} {name : String} {verbosity : Verbosity}
    {action : Action} (hname : Action.ofName? name = some action)
    (hoptions : command? (options ++ [name]) = some ⟨verbosity, action, .statements []⟩) :
    ∃ p, options.foldlM Progress.take {} = some p ∧ p.OptionsOnly ∧ p.verbosity = verbosity := by
  rw [command?_append] at hoptions
  obtain ⟨p, hp, hlast⟩ := Option.bind_eq_some_iff.mp hoptions
  obtain ⟨q, htake, hcommand⟩ := Option.bind_eq_some_iff.mp hlast
  rw [List.foldlM_cons, funext fun _ => List.foldlM_nil, bind_pure] at htake
  have honly := Progress.optionsOnly_of_take_name hname htake hcommand
  refine ⟨p, hp, honly, ?_⟩
  rw [honly.take_name hname] at htake
  cases htake
  simp only [Progress.command?, honly.path?, Option.some.injEq, Command.mk.injEq] at hcommand
  exact hcommand.1

/-- What a way to read arguments has to make of the input. When some options and the name of an
action give a command without input, a file and statements can be given to it. -/
structure ReadsInput (interpret : List String → Option Command) : Prop where
  attached {options : List String} {name path : String} {verbosity : Verbosity} {action : Action} :
    Action.ofName? name = some action →
    interpret (options ++ [name]) = some ⟨verbosity, action, .statements []⟩ → path ≠ "" →
    interpret (options ++ [name, "--file=" ++ path]) = some ⟨verbosity, action, .file path⟩
  apart {options : List String} {name path : String} {verbosity : Verbosity} {action : Action} :
    Action.ofName? name = some action →
    interpret (options ++ [name]) = some ⟨verbosity, action, .statements []⟩ → path ≠ "" →
    isOption path.toList = false →
    interpret (options ++ [name, "--file", path]) = some ⟨verbosity, action, .file path⟩
  verbatim {options : List String} {name : String} {verbosity : Verbosity} {action : Action}
    (texts : List String) : Action.ofName? name = some action →
    interpret (options ++ [name]) = some ⟨verbosity, action, .statements []⟩ →
    interpret (options ++ name :: "--" :: texts) = some ⟨verbosity, action, .statements texts⟩

/-- Arguments are read as they should be. -/
theorem readsInput_command? : ReadsInput command? := by
  refine ⟨?_, ?_, ?_⟩
  · intro options name path verbosity action hname hoptions hpath
    obtain ⟨p, hfold, hp, rfl⟩ := exists_optionsOnly hname hoptions
    rw [command?_append, hfold]
    exact hp.bind_file_attached hname hpath
  · intro options name path verbosity action hname hoptions hpath hoption
    obtain ⟨p, hfold, hp, rfl⟩ := exists_optionsOnly hname hoptions
    rw [command?_append, hfold]
    exact hp.bind_file hname hpath hoption
  · intro options name verbosity action texts hname hoptions
    obtain ⟨p, hfold, hp, rfl⟩ := exists_optionsOnly hname hoptions
    rw [command?_append, hfold]
    exact hp.bind_verbatim hname texts

/-! ## Runs -/

/-- The report on a run with these arguments, where they give a command. -/
def report? (interpret : List String → Option Command) (text : Verbosity → Diagnostic → String)
    (files : String → Except ReadFault ByteArray) (arguments : List String) : Option Report :=
  (interpret arguments).map fun command => command.reportWith text (readFrom files)

/-- A report depends on the input only through the statements that it gives. -/
theorem report_eq_of_load_eq {read : String → Except ReadFault String} {input input' : Input}
    (h : load read input = load read input') (text : Verbosity → Diagnostic → String)
    (verbosity : Verbosity) (action : Action) :
    Command.reportWith ⟨verbosity, action, input⟩ text read =
      Command.reportWith ⟨verbosity, action, input'⟩ text read := by
  simp only [Command.reportWith, h]

theorem load_statements_congr (read : String → Except ReadFault String) {texts texts' : List String}
    (h : remains (texts.map String.toList) = remains (texts'.map String.toList)) :
    load read (.statements texts) = load read (.statements texts') :=
  congrArg Except.ok (statementsOf_congr h)

theorem load_file_eq_load_statements {files : String → Except ReadFault ByteArray}
    {path text : String} (hfile : files path = .ok text.toUTF8) :
    load (readFrom files) (.file path) =
      load (readFrom files) (.statements ((text.toList.splitOn '\n').map String.ofList)) := by
  have hdecode : String.fromUTF8? text.toUTF8 = some text := dif_pos text.isValidUTF8
  have hpieces : Input.pieces? files (.file path) = some (lines text.toList) := by
    simp only [Input.pieces?, hfile, hdecode, Option.map_some]
  rw [load_of_pieces hpieces, statementsOf_congr (remains_lines text.toList)]
  simp [load, Function.comp_def]

/-- The settings of the log and the action being given, statements from a file are reported on as
the pieces between its line feeds are after `--`; and among the statements after `--`, blanks make
no difference. This is so for every way to read arguments that reads input as it should, among them
the one above, and for every way to write messages. -/
theorem file_agrees_with_statements : ReadsInput command? ∧
    ∀ {interpret : List String → Option Command}, ReadsInput interpret →
      ∀ {options : List String} {name : String} {verbosity : Verbosity} {action : Action},
      Action.ofName? name = some action →
      interpret (options ++ [name]) = some ⟨verbosity, action, .statements []⟩ →
      ∀ (shown : Verbosity → Diagnostic → String) (files : String → Except ReadFault ByteArray),
      (∀ path text : String, path ≠ "" → files path = .ok text.toUTF8 → ∃ report,
        report? interpret shown files (options ++ [name, "--file=" ++ path]) = some report ∧
        (isOption path.toList = false →
          report? interpret shown files (options ++ [name, "--file", path]) = some report) ∧
        report? interpret shown files
          (options ++ name :: "--" :: (text.toList.splitOn '\n').map String.ofList) =
            some report) ∧
      ∀ texts texts' : List String, Relation.EqvGen BlankInserted texts texts' → ∃ report,
        report? interpret shown files (options ++ name :: "--" :: texts) = some report ∧
        report? interpret shown files (options ++ name :: "--" :: texts') = some report := by
  refine ⟨readsInput_command?, ?_⟩
  intro interpret hreads options name verbosity action hname hoptions shown files
  have hreport {arguments : List String} {command : Command}
      (h : interpret arguments = some command) :
      report? interpret shown files arguments = some (command.reportWith shown (readFrom files)) :=
    congrArg _ h
  have hverbatim (texts : List String) := hreport (hreads.verbatim texts hname hoptions)
  constructor
  · intro path text hpath hfile
    have hsame := report_eq_of_load_eq (load_file_eq_load_statements hfile) shown verbosity action
    refine ⟨_, hreport (hreads.attached hname hoptions hpath), fun hoption => ?_, ?_⟩
    · exact hreport (hreads.apart hname hoptions hpath hoption)
    · rw [hsame]
      exact hverbatim _
  · intro texts texts' hblanks
    have hload := load_statements_congr (readFrom files) (remains_eq_of_eqvGen hblanks)
    have hsame := report_eq_of_load_eq hload shown verbosity action
    refine ⟨_, hverbatim texts, ?_⟩
    rw [hsame]
    exact hverbatim texts'

theorem file_agrees_with_statements_returns :
    let files := fun _ => Except.ok "a := 1;\r\n\r\n-b\r\n".toUTF8
    let report? := report? command? Diagnostic.text files
    (∃ report,
      report? ["-v", "3", "-q", "run", "--file", "in.txt"] = some report ∧
      report? ["-v", "3", "-q", "run", "--", "a := 1;\r", "\r", "-b\r", ""] = some report) ∧
    ∃ report,
      report? ["-v", "3", "-q", "run", "--", "--", "a:=1;"] = some report ∧
      report? ["-v", "3", "-q", "run", "--", "-\u3000-", "a:=1;"] = some report := by
  intro files report?
  have hname : Action.ofName? "run" = some .run := rfl
  have hoptions : command? (["-v", "3", "-q"] ++ ["run"]) =
      some ⟨⟨3, true⟩, .run, .statements []⟩ := by
    decide +kernel
  have hpieces : ("a := 1;\r\n\r\n-b\r\n".toList.splitOn '\n').map String.ofList =
      ["a := 1;\r", "\r", "-b\r", ""] := by
    decide +kernel
  have hblank : Text.isBlank '\u3000' = true := by decide
  obtain ⟨hreads, hagree⟩ := file_agrees_with_statements
  obtain ⟨hfile, hstatements⟩ := hagree hreads hname hoptions Diagnostic.text files
  constructor
  · obtain ⟨report, -, hapart, hverbatim⟩ := hfile "in.txt" _ (by decide) rfl
    rw [hpieces] at hverbatim
    exact ⟨report, hapart rfl, hverbatim⟩
  · exact hstatements _ _ (.rel _ _ (.intro [] ["a:=1;"] ['-'] ['-'] '\u3000' hblank))

end ThreeAddress.CommandLine
