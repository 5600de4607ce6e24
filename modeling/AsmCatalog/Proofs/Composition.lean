/-
Runs of the program over several files.

A run imports its includes one after another, each with those before it, and then its
inputs, each with all includes.  What it writes is put together here from what its files
give when each of them is imported alone.

Main definitions:
* `ImportedFile`, `ImportedFile.Alone` — a file that a run has imported, and what importing
  it alone gives;
* `InTurn` — files that were imported one after another;
* `Readable` — a path leads to bytes that can be read;
* `Asks`, `AsksFor` — what a command line asks for, and command lines that agree in their
  includes and in their mode;
* `Composes` — what all of them write is made of the catalogs of single files.

Main statements:
* `importEach_cases` — files are imported in turn up to the first whose import fails;
* `composes_of_readable` — where the files can be read, the output is composed.
-/
import AsmCatalog.FileTree
import AsmCatalog.CommandLine.Run
import AsmCatalog.Proofs.FixedSource

namespace AsmCatalog.CommandLine

variable {a : Arguments} {c : Configuration} {opener : Opener} {mode : Mode}

/-! ### Files imported in turn -/

/-- A file that has been imported: its path, its catalog and the events of its import. -/
structure ImportedFile where
  path : SourcePath
  file : Catalog
  events : List Event

/-- Importing the file alone gives just this where it sees `includes`. -/
structure ImportedFile.Alone (i : ImportedFile) (opener : Opener) (mode : Mode)
    (includes : List Catalog) : Prop where
  result : (importPath opener { mode, includes } i.path).result = .ok i.file
  events : (importPath opener { mode, includes } i.path).events = i.events

/-- Files that were imported one after another, behind those that gave `done`.  `sees` tells
which includes a file sees, given the files before it. -/
def InTurn (opener : Opener) (mode : Mode) (sees : List Catalog → List Catalog) :
    List Catalog → List ImportedFile → Prop
  | _, [] => True
  | done, i :: rest =>
    i.Alone opener mode (sees done) ∧ InTurn opener mode sees (done ++ [i.file]) rest

section InTurn

variable {sees : List Catalog → List Catalog} {done : List Catalog} {items : List ImportedFile}

/-- Each file is imported as if it were alone, with what it sees of those before it. -/
theorem InTurn.alone (h : InTurn opener mode sees done items) {k : Nat} {i : ImportedFile}
    (hk : items[k]? = some i) :
    i.Alone opener mode (sees (done ++ (items.take k).map (·.file))) := by
  induction items generalizing done k with
  | nil => exact absurd hk (by simp)
  | cons first rest ih =>
    obtain ⟨hfirst, hrest⟩ := h
    cases k with
    | zero =>
      obtain rfl : first = i := by simpa using hk
      rw [List.take_zero, List.map_nil, List.append_nil]
      exact hfirst
    | succ k =>
      rw [List.getElem?_cons_succ] at hk
      have hi := ih hrest hk
      rw [List.append_assoc, List.singleton_append] at hi
      rw [List.take_succ_cons, List.map_cons]
      exact hi

/-- Files are imported in turn to the last one, or up to the first whose import fails. -/
theorem importEach_cases (opener : Opener) (mode : Mode) (sees : List Catalog → List Catalog)
    (done : List Catalog) (paths : List SourcePath) :
    ∃ items, InTurn opener mode sees done items ∧
      ((items.map (·.path) = paths ∧
          importEach opener mode sees done paths =
            ⟨items.flatMap (·.events), .ok (done ++ items.map (·.file))⟩) ∨
        ∃ path rest e, paths = items.map (·.path) ++ path :: rest ∧
          (importPath opener { mode, includes := sees (done ++ items.map (·.file)) }
            path).result = .error e ∧
          importEach opener mode sees done paths =
            ⟨items.flatMap (·.events) ++
              (importPath opener { mode, includes := sees (done ++ items.map (·.file)) }
                path).events, .error e⟩) := by
  induction paths generalizing done with
  | nil => exact ⟨[], trivial, .inl ⟨rfl, by rw [List.map_nil, List.append_nil]; rfl⟩⟩
  | cons path rest ih =>
    cases hresult : (importPath opener { mode, includes := sees done } path).result with
    | error e =>
      refine ⟨[], trivial, .inr ⟨path, rest, e, rfl, ?_, ?_⟩⟩
      · rw [List.map_nil, List.append_nil]
        exact hresult
      · simp only [importEach, hresult, List.map_nil, List.append_nil, List.flatMap_nil,
          List.nil_append]
    | ok file =>
      obtain ⟨items, hturn, hcases⟩ := ih (done ++ [file])
      let first : ImportedFile :=
        ⟨path, file, (importPath opener { mode, includes := sees done } path).events⟩
      have hfiles : done ++ (first :: items).map (·.file) =
          done ++ [file] ++ items.map (·.file) := by
        rw [List.map_cons, List.append_assoc, List.singleton_append]
      refine ⟨first :: items, ⟨⟨hresult, rfl⟩, hturn⟩, ?_⟩
      rw [hfiles]
      rcases hcases with ⟨hpaths, heach⟩ | ⟨path', rest', e, hpaths, hfails, heach⟩
      · refine .inl ⟨congrArg (path :: ·) hpaths, ?_⟩
        simp only [importEach, hresult, heach, List.flatMap_cons, first]
      · refine .inr ⟨path', rest', e, congrArg (path :: ·) hpaths, hfails, ?_⟩
        simp only [importEach, hresult, heach, List.flatMap_cons, List.append_assoc, first]

end InTurn

/-! ### Whole runs -/

/-- A valid command line without a time limit, and the configuration that it asks for. -/
structure Asks (a : Arguments) (c : Configuration) : Prop where
  valid : Configuration.ofArguments a = .ok c
  unlimited : a.timeLimit? = none

/-- A run whose imports succeed writes a document of their catalogs. -/
theorem run_of_ok (hconfig : Configuration.ofArguments a = .ok c) {events : List Event}
    {files : Catalogs} (h : c.importAll opener = ⟨events, .ok files⟩) :
    run a opener = ⟨Utf8.encode (c.document files),
      events ++ [.finished files.includes.length files.inputs.length], none⟩ := by
  simp only [run, attempt, hconfig, h, deliver]

/-- A run with an import that fails writes nothing. -/
theorem run_of_error (hconfig : Configuration.ofArguments a = .ok c) {events : List Event}
    {e : ImportError} (h : c.importAll opener = ⟨events, .error e⟩) :
    run a opener = ⟨[], events, some (.importFailed e)⟩ := by
  simp only [run, attempt, hconfig, h]

/-! ### Files that can be read -/

/-- A path leads to bytes, all of which can be read. -/
def Readable (opener : Opener) (path : SourcePath) : Prop :=
  ∃ bytes, opener path = .ok (.ofBytes bytes)

theorem exists_ok_of_readable {path : SourcePath} (h : Readable opener path) (mode : Mode)
    (includes : List Catalog) :
    ∃ file, (importPath opener { mode, includes } path).result = .ok file := by
  obtain ⟨bytes, hbytes⟩ := h
  rw [importPath, hbytes]
  exact Catalog.exists_ok_ofBytes path mode includes bytes 0

/-- Files that can be read are all imported. -/
theorem importEach_of_readable (mode : Mode) (sees : List Catalog → List Catalog)
    {paths : List SourcePath} (h : ∀ path ∈ paths, Readable opener path) :
    ∃ items, InTurn opener mode sees [] items ∧ items.map (·.path) = paths ∧
      importEach opener mode sees [] paths =
        ⟨items.flatMap (·.events), .ok (items.map (·.file))⟩ := by
  obtain ⟨items, hturn, ⟨hpaths, heach⟩ | ⟨path, rest, e, hpaths, hfails, -⟩⟩ :=
    importEach_cases opener mode sees [] paths
  · exact ⟨items, hturn, hpaths, heach⟩
  · have hpath : path ∈ paths := by
      rw [hpaths]
      exact List.mem_append_right _ List.mem_cons_self
    obtain ⟨file, hfile⟩ := exists_ok_of_readable (h path hpath) mode
      (sees ([] ++ items.map (·.file)))
    exact absurd (hfile.symm.trans hfails) (by simp)

/-- A command line that asks for these includes in this mode, and for inputs that can all be
read. -/
structure AsksFor (a : Arguments) (c : Configuration) (opener : Opener) (mode : Mode)
    (includes : List SourcePath) : Prop extends Asks a c where
  mode : c.mode = mode
  includes : c.includes = includes
  readable : ∀ path ∈ c.inputs, Readable opener path

/-- The report on missing includes as it is written, and nothing if there is none. -/
def dueReport (expected : List Text) (includes : List Catalog) : Text :=
  match includeReport? expected includes with
  | some report => report ++ ['\n']
  | none => []

/-- What is written comes of single files: of the catalogs `includes` for the includes at
`paths`, and of one catalog for each path that an input can have. -/
structure Composes (opener : Opener) (mode : Mode) (paths : List SourcePath)
    (includes : List Catalog) (catalogAt : SourcePath → Catalog) : Prop where
  /-- Each include is imported with exactly those before it. -/
  each : includes.length = paths.length
  includeAt (k : Nat) (path : SourcePath) : paths[k]? = some path → ∃ file,
    includes[k]? = some file ∧
      (importPath opener { mode, includes := includes.take k } path).result = .ok file
  /-- Each input is imported with all includes and without any other input. -/
  inputAt (path : SourcePath) : Readable opener path →
    (importPath opener { mode, includes } path).result = .ok (catalogAt path)
  succeeds (a : Arguments) (c : Configuration) : AsksFor a c opener mode paths →
    (run a opener).error? = none
  /-- Listings are written file by file, with the report behind them. -/
  text (a : Arguments) (c : Configuration) : AsksFor a c opener mode paths → c.format = .text →
    (run a opener).written = Utf8.encode (includes.flatMap Catalog.listing ++
      c.inputs.flatMap (fun path => (catalogAt path).listing) ++ dueReport c.expected includes)
  /-- Summaries are written of the same files in the same order. -/
  json (a : Arguments) (c : Configuration) : AsksFor a c opener mode paths → c.format = .json →
    (run a opener).written = Utf8.encode (Json.pretty (.list (includes.map Catalog.summary ++
      c.inputs.map fun path => (catalogAt path).summary)) ++ ['\n'])

/-- Inputs that can be read give the catalogs that each of them gives alone. -/
theorem importEach_inputs {includes : List Catalog} {catalogAt : SourcePath → Catalog}
    (hat : ∀ path, Readable opener path →
      (importPath opener { mode, includes } path).result = .ok (catalogAt path))
    {inputs : List SourcePath} (h : ∀ path ∈ inputs, Readable opener path) :
    ∃ events, importEach opener mode (fun _ => includes) [] inputs =
      ⟨events, .ok (inputs.map catalogAt)⟩ := by
  obtain ⟨items, hturn, hpaths, heach⟩ := importEach_of_readable mode (fun _ => includes) h
  have hfiles : items.map (·.file) = inputs.map catalogAt := by
    rw [← hpaths, List.map_map]
    refine List.map_congr_left fun i hi => ?_
    obtain ⟨k, hk⟩ := List.mem_iff_getElem?.mp hi
    have hread : Readable opener i.path := h i.path (hpaths ▸ List.mem_map_of_mem hi)
    exact Except.ok.inj ((hturn.alone hk).result.symm.trans (hat i.path hread))
  exact ⟨_, hfiles ▸ heach⟩

/-- Runs whose files can be read are composed of the imports of single files: inputs do not
interfere with each other. -/
theorem composes_of_readable (opener : Opener) (mode : Mode) (paths : List SourcePath)
    (h : ∀ path ∈ paths, Readable opener path) :
    ∃ includes catalogAt, Composes opener mode paths includes catalogAt := by
  obtain ⟨items, hturn, hpaths, heach⟩ := importEach_of_readable mode id h
  set includes := items.map (·.file) with hincludes
  have hinput : ∀ path, ∃ file, Readable opener path →
      (importPath opener { mode, includes } path).result = .ok file := by
    intro path
    by_cases hread : Readable opener path
    · obtain ⟨file, hfile⟩ := exists_ok_of_readable hread mode includes
      exact ⟨file, fun _ => hfile⟩
    · exact ⟨default, fun hread' => absurd hread' hread⟩
  choose catalogAt hat using hinput
  have hrun : ∀ a c, AsksFor a c opener mode paths → ∃ events,
      c.importAll opener = ⟨events, .ok ⟨includes, c.inputs.map catalogAt⟩⟩ := by
    rintro a c ⟨-, rfl, rfl, hread⟩
    obtain ⟨events, hinputs⟩ := importEach_inputs hat hread
    refine ⟨items.flatMap (·.events) ++ events, ?_⟩
    simp only [Configuration.importAll, heach, hinputs]
    rfl
  refine ⟨includes, catalogAt, ?_, fun k path hk => ?_, hat, fun a c hasks => ?_,
    fun a c hasks hformat => ?_, fun a c hasks hformat => ?_⟩
  · rw [hincludes, ← hpaths, List.length_map, List.length_map]
  · rw [← hpaths, List.getElem?_map] at hk
    obtain ⟨i, hi, rfl⟩ := Option.map_eq_some_iff.mp hk
    have halone := (hturn.alone hi).result
    rw [List.nil_append, id_eq, List.map_take, ← hincludes] at halone
    exact ⟨i.file, by rw [hincludes, List.getElem?_map, hi]; rfl, halone⟩
  · obtain ⟨events, hall⟩ := hrun a c hasks
    rw [run_of_ok hasks.valid hall]
  · obtain ⟨events, hall⟩ := hrun a c hasks
    rw [run_of_ok hasks.valid hall, Configuration.document, hformat]
    simp only [Configuration.textDocument, List.flatMap_append, List.flatMap_map]
    rw [dueReport]
    cases includeReport? c.expected includes <;> rfl
  · obtain ⟨events, hall⟩ := hrun a c hasks
    rw [run_of_ok hasks.valid hall, Configuration.document, hformat]
    simp only [Configuration.jsonDocument, List.map_append, List.map_map]
    rfl

/-- A directory with a file that defines a macro, a directory in it, and a file there that
calls the macro. -/
def sharedTree : FileTree where
  entries :=
    [(⟨.above 0, [['m']]⟩, .file (Utf8.encode
        ['w', ' ', 'm', 'a', 'c', 'r', 'o', '\n', 'e', 'n', 'd', 'm', '\n'])),
      (⟨.above 0, [['d']]⟩, .directory),
      (⟨.above 0, [['d'], ['c']]⟩, .file (Utf8.encode [' ', 'w', '\n']))]

/-- Its files as includes and as inputs, one of them twice. -/
def sharedArguments : Arguments where
  includes := [⟨['m']⟩, ⟨['d', '/', 'c']⟩]
  inputs := [⟨['d', '/', 'c']⟩, ⟨['d', '/', '.', '.', '/', 'm']⟩, ⟨['d', '/', 'c']⟩]
  expected := [['m'], ['x']]

theorem composes_of_readable_sharedTree :
    (∀ path ∈ sharedArguments.includes, Readable sharedTree.openPath path) ∧
      (∃ c, AsksFor sharedArguments c sharedTree.openPath .legacy sharedArguments.includes) ∧
      ∃ includes catalogAt, Composes sharedTree.openPath .legacy sharedArguments.includes
        includes catalogAt := by
  have hdirect : Readable sharedTree.openPath ⟨['m']⟩ := ⟨_, rfl⟩
  have hinside : Readable sharedTree.openPath ⟨['d', '/', 'c']⟩ := ⟨_, rfl⟩
  have haround : Readable sharedTree.openPath ⟨['d', '/', '.', '.', '/', 'm']⟩ := ⟨_, rfl⟩
  have hincludes : ∀ path ∈ sharedArguments.includes, Readable sharedTree.openPath path := by
    simp only [sharedArguments, List.forall_mem_cons]
    exact ⟨hdirect, hinside, by simp⟩
  refine ⟨hincludes, ⟨_, ⟨rfl, rfl⟩, rfl, rfl, ?_⟩, composes_of_readable _ _ _ hincludes⟩
  simp only [sharedArguments, List.forall_mem_cons]
  exact ⟨hinside, haround, hinside, by simp⟩

end AsmCatalog.CommandLine
