import ThreeAddress.CommandLine.Report
import ThreeAddress.Proofs.Acyclicity
import ThreeAddress.Proofs.Reconstruction

/-!
# All or nothing

A command ends in one of three ways: its file gives no text, one of its statements cannot be read,
or all of them can. In the first two nothing is printed. In the third every listing is that of a
statement, so the listings are well formed and have a tree together: nothing can fail once the
first of the output is written, and the log has no warning in it.

An equation for `Command.report` stands for each of the three ways. What a command prints, what it
logs and how it ends is read off these equations, for all actions at once.
-/
namespace ThreeAddress.CommandLine

open Statement Text

/-! ## Entries of the log -/

namespace Diagnostic

/-- An entry that is shown only when asked for: it is less grave than a warning. -/
def Quiet : Diagnostic → Prop
  | .notice n => 2 ≤ n.level.rank
  | _ => False

/-- An entry that blames the input, or none at all. Warnings about listings and defects of trees
are not of this kind. -/
def BlamesInput : Diagnostic → Prop
  | .notice n => 2 ≤ n.level.rank
  | .defect _ => False
  | .underlined .. | .parsingFailed | .unreadableFile .. => True

theorem Quiet.blamesInput {d : Diagnostic} (h : d.Quiet) : d.BlamesInput := by
  cases d with
  | notice n => exact h
  | underlined | parsingFailed | unreadableFile => trivial
  | defect d => exact h

theorem not_blamesInput_malformed (fault : Malformation) :
    ¬BlamesInput (.notice (.malformed fault)) := by
  intro h
  have hrank : (2 : Nat) ≤ 1 := h
  omega

theorem Quiet.text_eq {d : Diagnostic} (h : d.Quiet) {verbosity : Verbosity}
    (hlevel : verbosity.level ≤ 1) : d.text verbosity = "" := by
  cases d with
  | notice n =>
    have hrank : 2 ≤ n.level.rank := h
    have hhidden : ¬(!verbosity.quiet && decide (n.level.rank ≤ verbosity.level)) = true := by
      have : ¬n.level.rank ≤ verbosity.level := by omega
      simp [this]
    exact if_neg hhidden
  | underlined | parsingFailed | unreadableFile | defect => exact h.elim

theorem join_text_eq_empty {log : List Diagnostic} (h : ∀ d ∈ log, d.Quiet) {verbosity : Verbosity}
    (hlevel : verbosity.level ≤ 1) : String.join (log.map (text verbosity)) = "" := by
  induction log with
  | nil => rfl
  | cons d log ih =>
    rw [List.map_cons, String.join_cons, (h d List.mem_cons_self).text_eq hlevel,
      ih fun d' hd' => h d' (List.mem_cons_of_mem _ hd')]
    rfl

/-- The events of a part of the program, as entries. -/
def ofEvents (events : Array Event) : List Diagnostic :=
  events.toList.map fun event => .notice (.event event)

theorem quiet_of_mem_ofEvents {events : Array Event} {d : Diagnostic} (h : d ∈ ofEvents events) :
    d.Quiet := by
  obtain ⟨event, -, rfl⟩ := List.mem_map.mp h
  show 2 ≤ event.level.rank
  cases event <;> simp [Event.level, Level.rank]

end Diagnostic

/-! ## Reading statements -/

/-- What is logged while a statement is read, whatever comes of it. -/
def readingLog (statement : String) : List Diagnostic :=
  .notice (.reading statement) :: Diagnostic.ofEvents (parseTraced statement).events

theorem quiet_of_mem_readingLog {statement : String} {d : Diagnostic}
    (h : d ∈ readingLog statement) : d.Quiet := by
  obtain rfl | h := List.mem_cons.mp h
  · exact Nat.le_refl 2
  · exact Diagnostic.quiet_of_mem_ofEvents h

theorem readStatements_cons_error {statement : String} {failure : Failure}
    (h : parse statement = .error failure) (rest : List String) :
    readStatements (statement :: rest) =
      (none, readingLog statement ++ [.underlined statement failure, .parsingFailed]) := by
  have hresult : (parseTraced statement).result = .error failure := h
  simp only [readStatements, hresult]
  rfl

/-- A statement that is read adds no warning: its listing is well formed. -/
theorem readStatements_cons_ok {statement : String} {l : Listing} (h : parse statement = .ok l)
    (rest : List String) :
    readStatements (statement :: rest) =
      ((readStatements rest).1.map (l :: ·), readingLog statement ++ (readStatements rest).2) := by
  have hresult : (parseTraced statement).result = .ok l := h
  have hcheck : l.check = .ok () := by
    obtain ⟨a, -, -, rfl⟩ := exists_assignment_of_parse h
    exact a.linearUse_listing.check_eq_ok
  simp only [readStatements, hresult, hcheck, List.append_nil]
  rfl

/-- Statements are read exactly when each of them is, into its own listing. -/
theorem readStatements_eq_some_iff {statements : List String} {listings : List Listing} :
    (readStatements statements).1 = some listings ↔
      List.Forall₂ (fun statement l => parse statement = .ok l) statements listings := by
  induction statements generalizing listings with
  | nil => simp [readStatements, eq_comm]
  | cons statement rest ih =>
    rw [List.forall₂_cons_left_iff]
    cases h : parse statement with
    | error failure => simp [readStatements_cons_error h]
    | ok l =>
      simp only [readStatements_cons_ok h, Option.map_eq_some_iff, ih, Except.ok.injEq]
      constructor
      · rintro ⟨ls, hls, rfl⟩
        exact ⟨l, ls, rfl, hls, rfl⟩
      · rintro ⟨_, ls, rfl, hls, rfl⟩
        exact ⟨ls, hls, rfl⟩

theorem exists_readStatements_iff {statements : List String} :
    (∃ listings, (readStatements statements).1 = some listings) ↔
      ∀ statement ∈ statements, ∃ l, parse statement = .ok l := by
  simp only [readStatements_eq_some_iff, exists_forall₂_iff]

theorem blamesInput_of_mem_readStatements {statements : List String} {d : Diagnostic}
    (h : d ∈ (readStatements statements).2) : d.BlamesInput := by
  induction statements with
  | nil => cases h
  | cons statement rest ih =>
    cases hparse : parse statement with
    | error failure =>
      rw [readStatements_cons_error hparse] at h
      obtain h | h := List.mem_append.mp h
      · exact (quiet_of_mem_readingLog h).blamesInput
      · have hlast : d = .underlined statement failure ∨ d = .parsingFailed := by simpa using h
        obtain rfl | rfl := hlast
        · trivial
        · trivial
    | ok l =>
      rw [readStatements_cons_ok hparse] at h
      obtain h | h := List.mem_append.mp h
      · exact (quiet_of_mem_readingLog h).blamesInput
      · exact ih h

theorem quiet_of_mem_readStatements {statements : List String}
    (hall : ∀ statement ∈ statements, ∃ l, parse statement = .ok l) {d : Diagnostic}
    (h : d ∈ (readStatements statements).2) : d.Quiet := by
  induction statements with
  | nil => cases h
  | cons statement rest ih =>
    obtain ⟨l, hparse⟩ := hall statement List.mem_cons_self
    rw [readStatements_cons_ok hparse] at h
    obtain h | h := List.mem_append.mp h
    · exact quiet_of_mem_readingLog h
    · exact ih (fun s hs => hall s (List.mem_cons_of_mem _ hs)) h

/-- Listings of statements always have a tree together. -/
theorem exists_tree_of_parse {statements : List String} {listings : List Listing}
    (h : List.Forall₂ (fun statement l => parse statement = .ok l) statements listings) :
    ∃ tree, Tree.ofListings listings = .ok tree := by
  have houtlines : ∃ outlines,
      List.Forall₂ (fun l outline => Listing.outline l = .ok outline) listings outlines := by
    rw [exists_forall₂_iff]
    intro l hl
    obtain ⟨statement, -, hparse⟩ := exists_of_mem_of_forall₂ h hl
    obtain ⟨a, -, -, rfl⟩ := exists_assignment_of_parse hparse
    exact ⟨_, a.outline_listing⟩
  obtain ⟨outlines, houtlines⟩ := houtlines
  obtain ⟨tree, htree, -⟩ := Listing.ofListings_eq_ok_iff.mpr ⟨outlines, houtlines, rfl⟩
  exact ⟨tree, htree⟩

/-! ## The three endings -/

namespace Action

/-- All that an action prints. -/
def output (action : Action) (listings : List Listing) (tree : Tree Node) : String :=
  action.listingsText listings ++
    if action.showsTree then "Expression Tree:\n" ++ tree.outline Node.label else ""

/-- What is logged while the tree is built, if one is. -/
def buildingLog (action : Action) (listings : List Listing) : List Diagnostic :=
  if action.showsTree then Diagnostic.ofEvents (Tree.ofListingsTraced listings).events else []

/-- Running is showing the triads and then the tree. -/
theorem output_run (listings : List Listing) (tree : Tree Node) :
    output .run listings tree = output .triads listings tree ++ output .tree listings tree := by
  simp [output, listingsText, showsTriads, showsTree]

theorem quiet_of_mem_buildingLog {action : Action} {listings : List Listing} {d : Diagnostic}
    (h : d ∈ action.buildingLog listings) : d.Quiet := by
  unfold buildingLog at h
  split at h
  · exact Diagnostic.quiet_of_mem_ofEvents h
  · cases h

end Action

section
variable (command : Command) {read : String → Except ReadFault String} {problem : Diagnostic}
  {loaded : List String × List Diagnostic} {reading : List Diagnostic}

theorem report_of_unreadable (hload : load read command.input = .error problem) :
    command.report read =
      ⟨1, "", String.join ([problem].map (Diagnostic.text command.verbosity))⟩ := by
  simp only [Command.report, Command.reportWith, hload]

theorem report_of_rejected (hload : load read command.input = .ok loaded)
    (hread : readStatements loaded.1 = (none, reading)) :
    command.report read =
      ⟨1, "", String.join ((loaded.2 ++ reading).map (Diagnostic.text command.verbosity))⟩ := by
  simp only [Command.report, Command.reportWith, hload, hread]

theorem report_of_accepted {listings : List Listing} {tree : Tree Node}
    (hload : load read command.input = .ok loaded)
    (hread : readStatements loaded.1 = (some listings, reading))
    (htree : Tree.ofListings listings = .ok tree) :
    command.report read =
      ⟨0, command.action.output listings tree,
        String.join ((loaded.2 ++ reading ++ command.action.buildingLog listings).map
          (Diagnostic.text command.verbosity))⟩ := by
  have hresult : (Tree.ofListingsTraced listings).result = .ok tree := htree
  simp only [Command.report, Command.reportWith, hload, hread, hresult, Action.output, Action.buildingLog]
  split
  · rw [String.append_assoc]
    rfl
  · rw [String.append_empty, List.append_nil]

end

/-! ## What the input gives -/

/-- The text of a file, from the bytes of all files. -/
def readFrom (files : String → Except ReadFault ByteArray) (path : String) :
    Except ReadFault String := files path >>= decode

/-- The texts in which an input has its statements; there are none where its file gives no text. -/
def Input.pieces? (files : String → Except ReadFault ByteArray) : Input → Option (List (List Char))
  | .statements texts => some (texts.map String.toList)
  | .file path =>
      match files path with
      | .error _ => none
      | .ok bytes => (String.fromUTF8? bytes).map fun text => lines text.toList

def Blank (text : List Char) : Prop := ∀ c ∈ text, isBlank c = true

/-- Each text that is not blank is a statement, once its blanks are gone. -/
def AllAccepted (pieces : List (List Char)) : Prop :=
  ∀ piece ∈ pieces, ¬Blank piece → ∃ l, parse (String.ofList (stripBlanks piece)) = .ok l

theorem stripBlanks_eq_nil_iff {text : List Char} : stripBlanks text = [] ↔ Blank text := by
  simp [stripBlanks, Blank]

theorem filter_stripBlanks_eq_nil_iff {pieces : List (List Char)} :
    (pieces.map stripBlanks).filter (!·.isEmpty) = [] ↔ ∀ piece ∈ pieces, Blank piece := by
  simp [List.filter_eq_nil_iff, stripBlanks_eq_nil_iff]

theorem statementsOf_of_blank {pieces : List (List Char)} (h : ∀ piece ∈ pieces, Blank piece) :
    statementsOf pieces = ([sample], [.notice .noInput]) := by
  simp only [statementsOf, filter_stripBlanks_eq_nil_iff.mpr h]

theorem statementsOf_of_not_blank {pieces : List (List Char)}
    (h : ¬∀ piece ∈ pieces, Blank piece) :
    statementsOf pieces =
      (((pieces.map stripBlanks).filter (!·.isEmpty)).map String.ofList, []) := by
  unfold statementsOf
  split
  · next hnone => exact absurd (filter_stripBlanks_eq_nil_iff.mp hnone) h
  · rfl

theorem exists_parse_sample : ∃ l, parse sample = .ok l := by
  have hok : (parse sample).isOk = true := by decide +kernel
  cases h : parse sample with
  | ok l => exact ⟨l, rfl⟩
  | error failure =>
    rw [h] at hok
    cases hok

theorem all_statementsOf_iff {pieces : List (List Char)} :
    (∀ statement ∈ (statementsOf pieces).1, ∃ l, parse statement = .ok l) ↔ AllAccepted pieces := by
  by_cases hblank : ∀ piece ∈ pieces, Blank piece
  · have hsample : ∀ statement ∈ [sample], ∃ l, parse statement = .ok l := by
      intro statement h
      rw [List.mem_singleton.mp h]
      exact exists_parse_sample
    rw [statementsOf_of_blank hblank]
    exact iff_of_true hsample fun piece hpiece hnot => absurd (hblank piece hpiece) hnot
  · rw [statementsOf_of_not_blank hblank]
    simp only [List.forall_mem_map, List.mem_filter, and_imp]
    simp [AllAccepted, stripBlanks_eq_nil_iff]

theorem quiet_of_mem_statementsOf {pieces : List (List Char)} {d : Diagnostic}
    (h : d ∈ (statementsOf pieces).2) : d.Quiet := by
  by_cases hblank : ∀ piece ∈ pieces, Blank piece
  · rw [statementsOf_of_blank hblank] at h
    rw [List.mem_singleton.mp h]
    exact Nat.le_succ 2
  · rw [statementsOf_of_not_blank hblank] at h
    cases h

theorem load_of_pieces {files : String → Except ReadFault ByteArray} {input : Input}
    {pieces : List (List Char)} (h : input.pieces? files = some pieces) :
    load (readFrom files) input = .ok (statementsOf pieces) := by
  cases input with
  | statements texts =>
    cases h
    rfl
  | file path =>
    cases hbytes : files path with
    | error fault => simp [Input.pieces?, hbytes] at h
    | ok bytes =>
      simp only [Input.pieces?, hbytes, Option.map_eq_some_iff] at h
      obtain ⟨text, htext, rfl⟩ := h
      have hread : readFrom files path = .ok text := by
        simp [readFrom, hbytes, decode, htext, bind, Except.bind]
      simp only [load, hread]

theorem load_of_no_pieces {files : String → Except ReadFault ByteArray} {input : Input}
    (h : input.pieces? files = none) :
    ∃ path fault, load (readFrom files) input = .error (.unreadableFile path fault) := by
  cases input with
  | statements texts => cases h
  | file path =>
    have hread : ∃ fault, readFrom files path = .error fault := by
      cases hbytes : files path with
      | error fault => exact ⟨fault, by rw [readFrom, hbytes]; rfl⟩
      | ok bytes =>
        simp only [Input.pieces?, hbytes, Option.map_eq_none_iff] at h
        exact ⟨.notText, by simp [readFrom, hbytes, decode, h, bind, Except.bind]⟩
    obtain ⟨fault, hread⟩ := hread
    exact ⟨path, fault, by simp only [load, hread]⟩

/-- How a command with this input ends, whatever its action and verbosity. -/
inductive Ending (files : String → Except ReadFault ByteArray) (input : Input) : Prop where
  | unreadable (path : String) (fault : ReadFault) (hpieces : input.pieces? files = none)
      (hload : load (readFrom files) input = .error (.unreadableFile path fault))
  | rejected (pieces : List (List Char)) (reading : List Diagnostic)
      (hpieces : input.pieces? files = some pieces) (hnot : ¬AllAccepted pieces)
      (hread : readStatements (statementsOf pieces).1 = (none, reading))
  | accepted (pieces : List (List Char)) (listings : List Listing) (reading : List Diagnostic)
      (tree : Tree Node) (hpieces : input.pieces? files = some pieces) (hall : AllAccepted pieces)
      (hread : readStatements (statementsOf pieces).1 = (some listings, reading))
      (htree : Tree.ofListings listings = .ok tree)

theorem ending (files : String → Except ReadFault ByteArray) (input : Input) :
    Ending files input := by
  cases hpieces : input.pieces? files with
  | none =>
    obtain ⟨path, fault, hload⟩ := load_of_no_pieces hpieces
    exact .unreadable path fault hpieces hload
  | some pieces =>
    cases hread : readStatements (statementsOf pieces).1 with
    | mk listings? reading =>
      have hiff := exists_readStatements_iff.trans (@all_statementsOf_iff pieces)
      rw [hread] at hiff
      cases listings? with
      | none => exact .rejected pieces reading hpieces (by simpa using hiff) hread
      | some listings =>
        have hparse := readStatements_eq_some_iff.mp (congrArg Prod.fst hread)
        obtain ⟨tree, htree⟩ := exists_tree_of_parse hparse
        exact .accepted pieces listings reading tree hpieces (hiff.mp ⟨listings, rfl⟩) hread htree

/-! ## The command as a whole -/

section
variable (command : Command) (files : String → Except ReadFault ByteArray)

theorem exitCode_eq_zero_iff : (command.report (readFrom files)).exitCode = 0 ↔
    ∃ pieces, command.input.pieces? files = some pieces ∧ AllAccepted pieces := by
  cases ending files command.input with
  | unreadable path fault hpieces hload =>
    simp [report_of_unreadable command hload, hpieces]
  | rejected pieces reading hpieces hnot hread =>
    simp [report_of_rejected command (load_of_pieces hpieces) hread, hpieces, hnot]
  | accepted pieces listings reading tree hpieces hall hread htree =>
    simp [report_of_accepted command (load_of_pieces hpieces) hread htree, hpieces, hall]

/-- A command that does not succeed ends with the code 1 and prints nothing. -/
theorem exitCode_eq_zero_or_stdout_eq_empty :
    (command.report (readFrom files)).exitCode = 0 ∨
      (command.report (readFrom files)).exitCode = 1 ∧
        (command.report (readFrom files)).stdout = "" := by
  cases ending files command.input with
  | unreadable path fault hpieces hload =>
    rw [report_of_unreadable command hload]
    exact .inr ⟨rfl, rfl⟩
  | rejected pieces reading hpieces hnot hread =>
    rw [report_of_rejected command (load_of_pieces hpieces) hread]
    exact .inr ⟨rfl, rfl⟩
  | accepted pieces listings reading tree hpieces hall hread htree =>
    rw [report_of_accepted command (load_of_pieces hpieces) hread htree]
    exact .inl rfl

/-- Exit code and output depend on the statements only, not on where they come from. -/
theorem report_congr {input : Input} {pieces pieces' : List (List Char)}
    (hpieces : command.input.pieces? files = some pieces)
    (hpieces' : input.pieces? files = some pieces')
    (hsame : (statementsOf pieces).1 = (statementsOf pieces').1) :
    (command.report (readFrom files)).exitCode =
        (({ command with input } : Command).report (readFrom files)).exitCode ∧
      (command.report (readFrom files)).stdout =
        (({ command with input } : Command).report (readFrom files)).stdout := by
  have hload := load_of_pieces hpieces
  have hload' := load_of_pieces hpieces'
  cases ending files command.input with
  | unreadable path fault hnone => exact absurd (hpieces.symm.trans hnone) (Option.some_ne_none _)
  | rejected other reading hother hnot hread =>
    obtain rfl : pieces = other := Option.some.inj (hpieces.symm.trans hother)
    rw [report_of_rejected command hload hread,
      report_of_rejected { command with input } hload' (hsame ▸ hread)]
    exact ⟨rfl, rfl⟩
  | accepted other listings reading tree hother hall hread htree =>
    obtain rfl : pieces = other := Option.some.inj (hpieces.symm.trans hother)
    rw [report_of_accepted command hload hread htree,
      report_of_accepted { command with input } hload' (hsame ▸ hread) htree]
    exact ⟨rfl, rfl⟩

/-- One log stands behind what is written at each verbosity. It blames nothing but the input, and
on success nothing at all. -/
theorem exists_log : ∃ log : List Diagnostic,
    (∀ verbosity, (({ command with verbosity } : Command).report (readFrom files)).stderr =
      String.join (log.map (Diagnostic.text verbosity))) ∧
      (∀ d ∈ log, d.BlamesInput) ∧
      ((command.report (readFrom files)).exitCode = 0 → ∀ d ∈ log, d.Quiet) := by
  cases ending files command.input with
  | unreadable path fault hpieces hload =>
    refine ⟨[.unreadableFile path fault], fun verbosity => ?_, fun d hd => ?_, fun h => ?_⟩
    · rw [report_of_unreadable { command with verbosity } hload]
    · rw [List.mem_singleton.mp hd]
      trivial
    · rw [report_of_unreadable command hload] at h
      cases h
  | rejected pieces reading hpieces hnot hread =>
    have hload := load_of_pieces hpieces
    refine ⟨(statementsOf pieces).2 ++ reading, fun verbosity => ?_, fun d hd => ?_, fun h => ?_⟩
    · rw [report_of_rejected { command with verbosity } hload hread]
    · obtain hd | hd := List.mem_append.mp hd
      · exact (quiet_of_mem_statementsOf hd).blamesInput
      · have hmem : d ∈ (readStatements (statementsOf pieces).1).2 := by rwa [hread]
        exact blamesInput_of_mem_readStatements hmem
    · rw [report_of_rejected command hload hread] at h
      cases h
  | accepted pieces listings reading tree hpieces hall hread htree =>
    have hload := load_of_pieces hpieces
    have hquiet : ∀ d ∈ (statementsOf pieces).2 ++ reading ++ command.action.buildingLog listings,
        d.Quiet := by
      intro d hd
      obtain hd | hd := List.mem_append.mp hd
      · obtain hd | hd := List.mem_append.mp hd
        · exact quiet_of_mem_statementsOf hd
        · have hmem : d ∈ (readStatements (statementsOf pieces).1).2 := by rwa [hread]
          exact quiet_of_mem_readStatements (all_statementsOf_iff.mpr hall) hmem
      · exact Action.quiet_of_mem_buildingLog hd
    refine ⟨_, fun verbosity => ?_, fun d hd => (hquiet d hd).blamesInput, fun _ => hquiet⟩
    rw [report_of_accepted { command with verbosity } hload hread htree]

theorem stdout_run :
    (({ command with action := .run } : Command).report (readFrom files)).stdout =
    (({ command with action := .triads } : Command).report (readFrom files)).stdout ++
      (({ command with action := .tree } : Command).report (readFrom files)).stdout := by
  cases ending files command.input with
  | unreadable path fault hpieces hload =>
    rw [report_of_unreadable { command with action := .run } hload,
      report_of_unreadable { command with action := .triads } hload,
      report_of_unreadable { command with action := .tree } hload]
    rfl
  | rejected pieces reading hpieces hnot hread =>
    have hload := load_of_pieces hpieces
    rw [report_of_rejected { command with action := .run } hload hread,
      report_of_rejected { command with action := .triads } hload hread,
      report_of_rejected { command with action := .tree } hload hread]
    rfl
  | accepted pieces listings reading tree hpieces hall hread htree =>
    have hload := load_of_pieces hpieces
    rw [report_of_accepted { command with action := .run } hload hread htree,
      report_of_accepted { command with action := .triads } hload hread htree,
      report_of_accepted { command with action := .tree } hload hread htree]
    exact Action.output_run listings tree

end

/-- What holds of a command, whatever the files hold. -/
structure Command.AllOrNothing (command : Command) (files : String → Except ReadFault ByteArray) :
    Prop where
  exitCode : (command.report (readFrom files)).exitCode = 0 ∨
    (command.report (readFrom files)).exitCode = 1
  success : (command.report (readFrom files)).exitCode = 0 ↔
    ∃ pieces, command.input.pieces? files = some pieces ∧ AllAccepted pieces
  /-- Input without a statement is as good as the sample. -/
  fallback : ∀ pieces, command.input.pieces? files = some pieces →
    (∀ piece ∈ pieces, Blank piece) →
    (command.report (readFrom files)).exitCode = (({ command with
        input := .statements [sample] } : Command).report (readFrom files)).exitCode ∧
      (command.report (readFrom files)).stdout = (({ command with
        input := .statements [sample] } : Command).report (readFrom files)).stdout
  failure : (command.report (readFrom files)).exitCode = 1 →
    (command.report (readFrom files)).stdout = ""
  /-- Once all statements are read, no listing of theirs is warned of and they have a tree. -/
  parsed : ∀ pieces listings reading, command.input.pieces? files = some pieces →
    readStatements (statementsOf pieces).1 = (some listings, reading) →
    (∀ fault, .notice (.malformed fault) ∉ reading) ∧ ∃ tree, Tree.ofListings listings = .ok tree
  /-- The log behind all that is written at any verbosity has no warning about a listing and no
  defect of a tree in it. -/
  log : ∃ log : List Diagnostic,
    (∀ verbosity, (({ command with verbosity } : Command).report (readFrom files)).stderr =
      String.join (log.map (Diagnostic.text verbosity))) ∧
    (∀ fault, .notice (.malformed fault) ∉ log) ∧ ∀ defect, .defect defect ∉ log
  silent : command.verbosity.level ≤ 1 → (command.report (readFrom files)).exitCode = 0 →
    (command.report (readFrom files)).stderr = ""
  run : (({ command with action := .run } : Command).report (readFrom files)).stdout =
    (({ command with action := .triads } : Command).report (readFrom files)).stdout ++
      (({ command with action := .tree } : Command).report (readFrom files)).stdout

/-- A command does all of what it is asked for, or it prints nothing and says what is wrong with
its input. -/
theorem command_all_or_nothing (command : Command) (files : String → Except ReadFault ByteArray) :
    command.AllOrNothing files := by
  obtain ⟨log, hlog, hblames, hquiet⟩ := exists_log command files
  have hends := exitCode_eq_zero_or_stdout_eq_empty command files
  constructor
  case exitCode => exact hends.imp_right And.left
  case success => exact exitCode_eq_zero_iff command files
  case fallback =>
    intro pieces hpieces hblank
    -- The sample has no blanks to lose.
    have hsample : (statementsOf [sample.toList]).1 = [sample] := by decide +kernel
    refine report_congr command files hpieces rfl ?_
    rw [statementsOf_of_blank hblank]
    exact hsample.symm
  case failure =>
    intro hone
    obtain hzero | ⟨-, hempty⟩ := hends
    · omega
    · exact hempty
  case parsed =>
    intro pieces listings reading _ hread
    refine ⟨fun fault hmem => ?_, ?_⟩
    · have hfault : .notice (.malformed fault) ∈ (readStatements (statementsOf pieces).1).2 := by
        rwa [hread]
      exact Diagnostic.not_blamesInput_malformed fault (blamesInput_of_mem_readStatements hfault)
    · exact exists_tree_of_parse (readStatements_eq_some_iff.mp (congrArg Prod.fst hread))
  case log =>
    refine ⟨log, hlog, fun fault hmem => ?_, fun defect hmem => hblames _ hmem⟩
    exact Diagnostic.not_blamesInput_malformed fault (hblames _ hmem)
  case silent =>
    intro hlevel hzero
    have hstderr := hlog command.verbosity
    rw [Diagnostic.join_text_eq_empty (hquiet hzero) hlevel] at hstderr
    exact hstderr
  case run => exact stdout_run command files

end ThreeAddress.CommandLine
