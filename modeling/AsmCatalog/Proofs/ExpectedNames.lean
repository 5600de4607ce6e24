/-
Expected names.

A command line may name files that it expects among its includes.  The names have no say in what
is imported, in the events, or in whether a run succeeds.  A listing gets a report behind it that
names those which are missing, and that is all.

Main definitions:
* `Arguments.expecting` — the same command line with other expected names;
* `missingNames` — the names that are the file name of no path;
* `indentedLines` — the lines of a document that begin with two spaces, without them;
* `Advises` — what two lists of expected names have in common, and what one of them adds.

Main statements:
* `indentedLines_dueReport` — the report names what is missing, and nothing else;
* `run_expecting` — a run with expected names is put together from the run with none;
* `advises_of_newline_notMem` — expected names only advise.
-/
import AsmCatalog.Proofs.Comparison
import AsmCatalog.Proofs.Composition
import AsmCatalog.Proofs.UnbrokenText

namespace AsmCatalog.CommandLine

variable {names : List Text} {opener : Opener} {includes : List Catalog}

/-- The same command line with other expected names. -/
def Arguments.expecting (a : Arguments) (names : List Text) : Arguments :=
  { a with expected := names }

/-! ### Missing names -/

/-- The names, in order and as often as they are given, that are the file name of no path. -/
def missingNames (names : List Text) (paths : List SourcePath) : List Text :=
  names.filter fun name => ∀ path ∈ paths, path.fileName? ≠ some name

theorem missingNames_eq_nil_iff {paths : List SourcePath} : missingNames names paths = [] ↔
    ∀ name ∈ names, ∃ path ∈ paths, path.fileName? = some name := by
  simp [missingNames]

/-- A further path takes its file name away. -/
theorem missingNames_append (names : List Text) (paths : List SourcePath) (path : SourcePath) :
    missingNames names (paths ++ [path]) =
      (missingNames names paths).filter (path.fileName? ≠ some ·) := by
  rw [missingNames, missingNames, List.filter_filter]
  refine List.filter_congr fun name _ => ?_
  simp [or_imp, forall_and, and_comm]

/-- A path that ends in `..`, the root and `.` have no file name, and a slash at the end does not
matter. -/
example : missingNames [['.', '.'], ['.'], ['/'], [], ['a'], ['b'], ['B']]
    [⟨['a', '/', '.', '.']⟩, ⟨['/']⟩, ⟨['.']⟩, ⟨['d', '/', 'b', '/']⟩] =
      [['.', '.'], ['.'], ['/'], [], ['a'], ['B']] := by decide +kernel

theorem missingIncludes_eq (names : List Text) (includes : List Catalog) :
    missingIncludes names includes = missingNames names (includes.map (·.path)) := by
  refine List.filter_congr fun name _ => ?_
  rw [Bool.eq_iff_iff]
  simp [Catalog.isNamed]

/-! ### Reports -/

/-- What a line says behind two spaces, if it begins with them. -/
def indented? : Text → Option Text
  | ' ' :: ' ' :: rest => some rest
  | _ => none

/-- What the indented lines of a document say. -/
def indentedLines (document : Text) : List Text := (document.splitOn '\n').filterMap indented?

/-- The lines of a report: one for each missing name, between two others. -/
def reportLines (missing : List Text) : List Text :=
  "The following include files are expected but were not supplied:".toList ::
    missing.map ([' ', ' '] ++ ·) ++ ["Symbols they define will not be resolved.".toList]

theorem dueReport_of_none (h : missingIncludes names includes = []) :
    dueReport names includes = [] := by
  rw [dueReport, includeReport?, h]

theorem dueReport_of_missing (h : missingIncludes names includes ≠ []) :
    dueReport names includes =
      (reportLines (missingIncludes names includes)).flatMap (· ++ ['\n']) := by
  have hopening : "The following include files are expected but were not supplied:\n".toList =
      "The following include files are expected but were not supplied:".toList ++ ['\n'] := by
    decide
  rw [dueReport, includeReport?]
  split
  · rename_i report hreport
    split at hreport
    · exact absurd ‹_› h
    · rw [← Option.some.inj hreport, hopening, reportLines]
      simp only [List.flatMap_append, List.flatMap_cons, List.flatMap_map, List.flatMap_nil,
        List.cons_append, List.append_assoc, List.append_nil]
  · rename_i hreport
    split at hreport
    · exact absurd ‹_› h
    · exact absurd hreport (by simp)

/-- Nothing is reported exactly if nothing is missing. -/
theorem dueReport_eq_nil_iff :
    dueReport names includes = [] ↔ missingIncludes names includes = [] := by
  constructor
  · intro hnil
    by_contra hmissing
    rw [dueReport_of_missing hmissing, reportLines] at hnil
    exact absurd hnil (by simp)
  · exact dueReport_of_none

/-- A report names what is missing, in order, and its other lines are not indented. -/
theorem indentedLines_dueReport (h : ∀ name ∈ names, '\n' ∉ name) :
    indentedLines (dueReport names includes) = missingIncludes names includes := by
  by_cases hmissing : missingIncludes names includes = []
  · rw [dueReport_of_none hmissing, hmissing]
    rfl
  · have hnames : ∀ line ∈ (missingIncludes names includes).map ([' ', ' '] ++ ·),
        '\n' ∉ line := by
      intro line hline
      obtain ⟨name, hname, rfl⟩ := List.mem_map.mp hline
      have hname := h name (List.mem_of_mem_filter hname)
      simpa using hname
    have hlines : ∀ line ∈ reportLines (missingIncludes names includes), '\n' ∉ line := by
      rw [reportLines, List.forall_mem_append, List.forall_mem_cons, List.forall_mem_singleton]
      exact ⟨⟨by decide, hnames⟩, by decide⟩
    -- Behind the last line break an empty line is left, which is not indented either.
    have hcut := Text.splitOn_lines hlines []
    rw [List.append_nil, ← dueReport_of_missing hmissing] at hcut
    have hindented : ((missingIncludes names includes).map ([' ', ' '] ++ ·)).filterMap indented? =
        missingIncludes names includes := by
      rw [List.filterMap_map]
      exact List.filterMap_some
    rw [indentedLines, hcut, reportLines, List.filterMap_append, List.filterMap_append,
      List.filterMap_cons_none (by decide), hindented, List.filterMap_cons_none (by decide)]
    exact (List.append_nil _).trans (List.append_nil _)

/-! ### Runs -/

/-- A file has the path that it was imported from. -/
theorem path_of_importPath {settings : Import.Settings} {path : SourcePath} {file : Catalog}
    (h : (importPath opener settings path).result = .ok file) : file.path = path := by
  rw [importPath] at h
  split at h
  · exact Catalog.path_of_ofSource h
  · exact absurd h (by simp)

theorem InTurn.map_path {mode : Mode} {sees : List Catalog → List Catalog}
    {done : List Catalog} {items : List ImportedFile} (h : InTurn opener mode sees done items) :
    items.map (·.file.path) = items.map (·.path) := by
  induction items generalizing done with
  | nil => rfl
  | cons i rest ih =>
    obtain ⟨hfirst, hrest⟩ := h
    rw [List.map_cons, List.map_cons, ih hrest, path_of_importPath hfirst.result]

/-- The includes that are imported have the paths that were asked for. -/
theorem Configuration.map_path_includes {c : Configuration} {events : List Event}
    {files : Catalogs} (h : c.importAll opener = ⟨events, .ok files⟩) :
    files.includes.map (·.path) = c.includes := by
  obtain ⟨items, hturn, ⟨hpaths, heach⟩ | ⟨path, rest, e, -, -, heach⟩⟩ :=
    importEach_cases opener c.mode id [] c.includes
  · rw [importAll, heach] at h
    -- The inputs are imported behind the includes and do not change them.
    have hincludes : files.includes = [] ++ items.map (·.file) := by
      have hresult := congrArg Batch.result h
      dsimp only at hresult
      cases hinputs : (importEach opener c.mode (fun _ => [] ++ items.map (·.file)) []
          c.inputs).result with
      | error e =>
        rw [hinputs] at hresult
        exact absurd hresult (by simp [Except.map])
      | ok inputs =>
        rw [hinputs] at hresult
        exact (congrArg Catalogs.includes (Except.ok.inj hresult)).symm
    rw [hincludes, List.nil_append, List.map_map, ← hpaths]
    exact hturn.map_path
  · rw [importAll, heach] at h
    exact absurd (congrArg Batch.result h) (by simp)

/-- A command line asks for the same with other expected names, or is refused for the same
reason. -/
theorem Configuration.ofArguments_expecting (a : Arguments) (names : List Text) :
    ofArguments (a.expecting names) =
      (ofArguments a).map fun c => { c with expected := names } := by
  show (if a.inputs.isEmpty then _ else if a.timeLimit? = some 0 then _ else _) = _
  rw [ofArguments]
  split
  · rfl
  · split <;> rfl

theorem Configuration.of_ofArguments {a : Arguments} {c : Configuration}
    (h : ofArguments a = .ok c) : c.includes = a.includes ∧ c.format = a.format := by
  rw [ofArguments] at h
  split at h
  · exact absurd h (by simp)
  · split at h
    · exact absurd h (by simp)
    · rw [← Except.ok.inj h]
      exact ⟨rfl, rfl⟩

/-- A document is the document without expected names, with the report behind it if it is a
listing. -/
theorem Configuration.exists_document (c : Configuration) (files : Catalogs) :
    ∃ document, ∀ names, Configuration.document { c with expected := names } files =
      document ++ if c.format = .text then dueReport names files.includes else [] := by
  obtain ⟨inputs, includes, expected, mode, format⟩ := c
  cases format with
  | json => exact ⟨jsonDocument files, fun names => (List.append_nil _).symm⟩
  | text =>
    refine ⟨(files.includes ++ files.inputs).flatMap Catalog.listing, fun names => ?_⟩
    show textDocument _ files = _ ++ dueReport names files.includes
    rw [textDocument, dueReport]
    cases includeReport? names files.includes <;> rfl

/-- The expected names have no say in a run, which either fails, or writes the same with the due
report behind it. -/
theorem run_expecting (a : Arguments) (opener : Opener) :
    (∃ events e, ∀ names, run (a.expecting names) opener = ⟨[], events, some e⟩) ∨
      ∃ document events includes, includes.map (·.path) = a.includes ∧
        ∀ names, run (a.expecting names) opener =
          ⟨Utf8.encode (document ++ if a.format = .text then dueReport names includes else []),
            events, none⟩ := by
  cases hvalid : Configuration.ofArguments a with
  | error e =>
    refine .inl ⟨[], e, fun names => ?_⟩
    rw [run, attempt, Configuration.ofArguments_expecting, hvalid]
    rfl
  | ok c =>
    have hconfig (names : List Text) :
        Configuration.ofArguments (a.expecting names) = .ok { c with expected := names } := by
      rw [Configuration.ofArguments_expecting, hvalid]
      rfl
    obtain ⟨hincludes, hformat⟩ := Configuration.of_ofArguments hvalid
    -- The imports do not look at the expected names.
    have hall (names : List Text) :
        Configuration.importAll { c with expected := names } opener = c.importAll opener := rfl
    cases hbatch : c.importAll opener with
    | mk events result =>
      cases result with
      | error e =>
        exact .inl ⟨events, _, fun names =>
          run_of_error (hconfig names) ((hall names).trans hbatch)⟩
      | ok files =>
        obtain ⟨document, hdocument⟩ := c.exists_document files
        refine .inr ⟨document, events ++ [.finished files.includes.length files.inputs.length],
          files.includes, (Configuration.map_path_includes hbatch).trans hincludes, fun names => ?_⟩
        rw [run_of_ok (hconfig names) ((hall names).trans hbatch), hdocument, hformat]

/-! ### Expected names only advise -/

/-- What the expected names `names` make of a run, against `others`: it succeeds or fails in the
same way, with the same events, and writes the same but for a report behind its listings. -/
structure Advises (a : Arguments) (opener : Opener) (names others : List Text) : Prop where
  error : (run (a.expecting names) opener).error? = (run (a.expecting others) opener).error?
  events : (run (a.expecting names) opener).events = (run (a.expecting others) opener).events
  json : a.format = .json →
    (run (a.expecting names) opener).written = (run (a.expecting others) opener).written
  /-- A listing has a report behind it unless each name is the file name of an include.  Its
  indented lines are the names that are not. -/
  text : a.format = .text → (run (a.expecting names) opener).error? = none → ∃ report,
    (run (a.expecting names) opener).written =
        (run (a.expecting []) opener).written ++ Utf8.encode report ∧
      (report = [] ↔ ∀ name ∈ names, ∃ path ∈ a.includes, path.fileName? = some name) ∧
      indentedLines report = missingNames names a.includes
  /-- A run that fails writes nothing. -/
  failed : (run (a.expecting names) opener).error? ≠ none →
    (run (a.expecting names) opener).written = []
  /-- A further include takes its own file name from what is missing, and adds nothing. -/
  further (path : SourcePath) : missingNames names (a.includes ++ [path]) =
    (missingNames names a.includes).filter (path.fileName? ≠ some ·)

/-- Expected names without line breaks only advise, whatever files there are. -/
theorem advises_of_newline_notMem (a : Arguments) (opener : Opener) (others : List Text)
    (hnames : ∀ name ∈ names, '\n' ∉ name) : Advises a opener names others := by
  rcases run_expecting a opener with
    ⟨events, e, hrun⟩ | ⟨document, events, includes, hpaths, hrun⟩
  · have hfailed (names : List Text) : (run (a.expecting names) opener).error? ≠ none := by
      rw [hrun]
      exact Option.some_ne_none e
    refine ⟨?_, ?_, fun _ => ?_, fun _ hnone => absurd hnone (hfailed names), fun _ => ?_,
      missingNames_append names a.includes⟩
    all_goals simp only [hrun]
  · refine ⟨?_, ?_, fun hjson => ?_, fun htext _ => ⟨dueReport names includes, ?_, ?_, ?_⟩,
      fun hfailed => ?_, missingNames_append names a.includes⟩
    · simp only [hrun]
    · simp only [hrun]
    · have hnot : a.format ≠ .text := by
        rw [hjson]
        exact fun h => by cases h
      simp only [hrun, if_neg hnot]
    · have hnone : dueReport [] includes = [] := rfl
      simp only [hrun, if_pos htext, hnone, Utf8.encode_append, List.append_nil]
    · rw [dueReport_eq_nil_iff, missingIncludes_eq, hpaths, missingNames_eq_nil_iff]
    · rw [indentedLines_dueReport hnames, missingIncludes_eq, hpaths]
    · rw [hrun] at hfailed
      exact absurd rfl hfailed

/-- Names that are expected twice, in another case, with a directory, or of a file that is
there. -/
def expectedNames : List Text := [['x'], ['m'], ['M'], ['d', '/', 'c'], ['c'], ['x'], []]

theorem advises_of_newline_notMem_sharedTree :
    (∀ name ∈ expectedNames, '\n' ∉ name) ∧
      Advises sharedArguments sharedTree.openPath expectedNames [['m']] ∧
      (run (sharedArguments.expecting expectedNames) sharedTree.openPath).error? = none ∧
      missingNames expectedNames sharedArguments.includes =
        [['x'], ['M'], ['d', '/', 'c'], ['x'], []] := by
  have hnames : ∀ name ∈ expectedNames, '\n' ∉ name := by decide
  exact ⟨hnames, advises_of_newline_notMem _ _ _ hnames, by decide +kernel, by decide +kernel⟩

end AsmCatalog.CommandLine
