/-
Listings that are read back.

The columns of a row are at least as wide as the table says, and two spaces stand between them.
So the fields of a row can be told by its spaces, however wide its numbers are and whatever it
says of its chunk.  The first four of them write the same line, position, length and kind that a
summary gives.

Main definitions:
* `Text.IsField`, `Text.fields` — what stands in a column, and the fields of a row;
* `ChunkEntry` — what listings and summaries say of the place of a chunk;
* `ChunkEntry.ofRow?`, `ChunkEntry.ofJson?` — the entry in a row, and in an object of a summary;
* `Catalog.ListsEntries` — rows and objects give the entries of the top-level chunks.

Main statements:
* `Literal.numeral_toDigits` — the digits of a number write it;
* `ChunkEntry.ofRow?_row` — a row is read back;
* `Catalog.byLine_of_ofSource` — the chunks of an import are in the order of their lines;
* `Catalog.listsEntries_of_ofSource` — the listing of an import is read back, and agrees with
  its summary.
-/
import AsmCatalog.Proofs.Comparison
import AsmCatalog.Proofs.LiteralGrammar
import AsmCatalog.Proofs.UnbrokenText
import AsmCatalog.Summary

namespace AsmCatalog

open Unicode (isWhiteSpace)

/-! ### Fields of a row -/

namespace Text

variable {text word : Text} {c : Char}

/-- A text that can stand in a column: it is not empty and has no white space. -/
structure IsField (text : Text) : Prop where
  ne_nil : text ≠ []
  dark : ∀ c ∈ text, isWhiteSpace c = false

theorem IsField.notMem (h : IsField text) (hc : isWhiteSpace c = true) : c ∉ text := fun hmem =>
  absurd ((h.dark c hmem).symm.trans hc) Bool.false_ne_true

/-- The fields of a row, which have spaces between them. -/
def fields (row : Text) : List Text := (row.splitOn ' ').filter (· ≠ [])

theorem fields_space (row : Text) : fields (' ' :: row) = fields row := by
  rw [fields, ← List.nil_append (' ' :: row), List.splitOn_append_cons_self, fields]
  rfl

theorem fields_spaces (n : Nat) (row : Text) :
    fields (List.replicate n ' ' ++ row) = fields row := by
  induction n with
  | zero => rfl
  | succ n ih => rw [List.replicate_succ, List.cons_append, fields_space, ih]

theorem fields_append_space (h : IsField word) (row : Text) :
    fields (word ++ ' ' :: row) = word :: fields row := by
  rw [fields, List.splitOn_append_cons_self_of_not_mem (h.notMem (by decide)),
    List.filter_cons_of_pos (by simpa using h.ne_nil), fields]

/-- A column, and two spaces before the next one. -/
theorem fields_column (h : IsField word) (row : Text) :
    fields (word ++ ([' ', ' '] ++ row)) = word :: fields row :=
  (fields_append_space h _).trans (congrArg _ (fields_space row))

theorem fields_padLeft (h : IsField word) (width : Nat) (row : Text) :
    fields (padLeft ' ' width word ++ ([' ', ' '] ++ row)) = word :: fields row := by
  rw [padLeft, List.append_assoc, fields_spaces, fields_column h]

theorem fields_padRight (h : IsField word) (width : Nat) (row : Text) :
    fields (padRight ' ' width word ++ ([' ', ' '] ++ row)) = word :: fields row := by
  -- One of the spaces, however many there are, ends the word.
  have hspaces : List.replicate (width - word.length) ' ' ++ ([' ', ' '] ++ row) =
      ' ' :: (List.replicate (width - word.length) ' ' ++ ' ' :: row) := by
    rw [← List.cons_append, ← List.replicate_succ, List.replicate_succ', List.append_assoc]
    rfl
  rw [padRight, List.append_assoc, hspaces, fields_append_space h, fields_spaces, fields_space]

end Text

/-! ### Numbers -/

namespace Literal

open Text (IsField padLeft)

variable {base n : Nat} {text : Text}

/-- The digits of a number write it. -/
theorem numeral_toDigits (hbase : 1 < base) (n : Nat) : Numeral base (Nat.toDigits base n) n := by
  refine ⟨Nat.toDigits_ne_nil, ?_⟩
  induction n using Nat.strongRecOn with
  | ind n ih =>
    rw [Nat.toDigits_eq_if hbase]
    split
    · rename_i hsmall
      exact ⟨[n], .cons ⟨hsmall, .inl rfl⟩ .nil, by simp⟩
    · -- The last digit stands behind those of the number without it.
      obtain ⟨digits, hdigits, hvalue⟩ := ih (n / base) (Nat.div_lt_self (by omega) hbase)
      have hlast : IsDigit base (n % base).digitChar (n % base) :=
        ⟨Nat.mod_lt _ (by omega), .inl rfl⟩
      refine ⟨digits ++ [n % base], List.rel_append hdigits (.cons hlast .nil), ?_⟩
      rw [List.reverse_append, List.reverse_singleton, List.singleton_append, Nat.ofDigits_cons,
        ← hvalue]
      exact (Nat.mod_add_div n base).symm

/-- Capital letters write the same number. -/
theorem Numeral.map_toUpper (hbase : base ≤ 16) (h : Numeral base text n) :
    Numeral base (text.map Char.toUpper) n := by
  have hall : ∀ d < 16, d.digitChar.toUpper.toUpper = d.digitChar.toUpper := by decide +kernel
  obtain ⟨hne, digits, hdigits, hvalue⟩ := h
  refine ⟨by simpa using hne, digits, ?_, hvalue⟩
  rw [List.forall₂_map_left_iff]
  refine hdigits.imp fun c d hdigit => ⟨hdigit.1, .inr ?_⟩
  rcases hdigit.2 with rfl | rfl
  · rfl
  · exact hall d (Nat.lt_of_lt_of_le hdigit.1 hbase)

/-- And so does a number behind zeros. -/
theorem Numeral.padLeft (hbase : 0 < base) (h : Numeral base text n) (width : Nat) :
    Numeral base (padLeft '0' width text) n := by
  obtain ⟨hne, digits, hdigits, rfl⟩ := h
  have hzeros (k : Nat) : List.Forall₂ (IsDigit base) (List.replicate k '0')
      (List.replicate k 0) := by
    induction k with
    | zero => exact .nil
    | succ k ih => exact .cons ⟨hbase, .inl rfl⟩ ih
  refine ⟨fun hnil => hne (List.append_eq_nil_iff.mp hnil).2, _,
    List.rel_append (hzeros _) hdigits, ?_⟩
  rw [List.reverse_append, List.reverse_replicate, Nat.ofDigits_append_replicate_zero]

/-- A number can stand in a column. -/
theorem isField_of_unbounded? {v : Int} (h : unbounded? base text = some v) : IsField text where
  ne_nil := by
    rintro rfl
    exact absurd h (by simp [unbounded?, ofDigits?])
  dark := by
    intro c hc
    by_contra hdark
    have hwhite : isWhiteSpace c = true := by simpa using hdark
    have hsigns : c ≠ '-' ∧ c ≠ '+' :=
      ⟨fun heq => absurd (heq ▸ hwhite) (by decide), fun heq => absurd (heq ▸ hwhite) (by decide)⟩
    rw [unbounded?_eq_none hc (digit?_eq_none (.inl hwhite)) hsigns.1 hsigns.2] at h
    exact absurd h (by simp)

theorem isField_of_ofDigits? (h : ofDigits? base text = some n) : IsField text := by
  have hread : unbounded? base text = some (n : Int) := by
    rw [unbounded?_of_unsigned (unsigned_of_ofDigits? h), h]
    rfl
  exact isField_of_unbounded? hread

/-! ### Columns with numbers -/

theorem ofDigits?_ofNat (n : Nat) : ofDigits? 10 (Text.ofNat n) = some n :=
  (ofDigits?_eq_some_iff (by decide)).mpr (numeral_toDigits (by decide) n)

theorem ofDigits?_ofNatHex (width n : Nat) :
    ofDigits? 16 (padLeft '0' width (Text.ofNatHex n)) = some n :=
  (ofDigits?_eq_some_iff (Nat.le_refl 16)).mpr
    (((numeral_toDigits (by decide) n).map_toUpper (Nat.le_refl 16)).padLeft (by decide) width)

theorem unbounded?_ofInt (v : Int) : unbounded? 10 (Text.ofInt v) = some v := by
  rw [unbounded?_eq_some_iff (by decide)]
  cases v with
  | ofNat n => exact .plain (numeral_toDigits (by decide) n)
  | negSucc n => exact .minus (numeral_toDigits (by decide) (n + 1))

theorem isField_ofNat (n : Nat) : IsField (Text.ofNat n) :=
  isField_of_ofDigits? (ofDigits?_ofNat n)

theorem isField_ofNatHex (width n : Nat) : IsField (padLeft '0' width (Text.ofNatHex n)) :=
  isField_of_ofDigits? (ofDigits?_ofNatHex width n)

theorem isField_ofInt (v : Int) : IsField (Text.ofInt v) :=
  isField_of_unbounded? (unbounded?_ofInt v)

end Literal

/-! ### Entries -/

/-- What listings and summaries both say of a chunk: its line, its position, its length and its
kind. -/
structure ChunkEntry where
  line : Int
  position : Nat
  length : Nat
  kind : ChunkKind
deriving DecidableEq

/-- The entry of a chunk. -/
def Chunk.entry (c : Chunk) : ChunkEntry := ⟨c.line, c.position, c.length, c.kind⟩

/-- The kind that a word stands for. -/
def ChunkKind.ofWord? (word : Text) : Option ChunkKind :=
  [comment, macroDef, statement].find? (·.word.toList == word)

theorem ChunkKind.ofWord?_word (kind : ChunkKind) : ofWord? kind.word.toList = some kind := by
  cases kind <;> decide

theorem ChunkKind.isField_word (kind : ChunkKind) : Text.IsField kind.word.toList := by
  have hdark : kind.word.toList.all (!isWhiteSpace ·) = true := by cases kind <;> decide
  exact ⟨by cases kind <;> decide, by simpa using hdark⟩

namespace ChunkEntry

/-- The entry that the first four fields of a row write: the line in decimal, the position in
hexadecimal, the length in decimal, and the kind. -/
def ofRow? (row : Text) : Option ChunkEntry :=
  match Text.fields row with
  | line :: position :: length :: kind :: _ => do
    return ⟨← Literal.unbounded? 10 line, ← Literal.ofDigits? 16 position,
      ← Literal.ofDigits? 10 length, ← ChunkKind.ofWord? kind⟩
  | _ => none

/-- The fields of a row are those of its columns, and behind them those of what it says. -/
theorem fields_row (c : Chunk) :
    Text.fields c.row = Text.ofInt c.line :: Text.padLeft '0' 6 (Text.ofNatHex c.position) ::
      Text.ofNat c.length :: c.kind.word.toList :: Text.fields c.detail := by
  rw [Chunk.row]
  simp only [List.intercalate_cons_cons, List.intercalate_singleton, List.append_assoc]
  rw [Text.fields_padLeft (Literal.isField_ofInt _),
    Text.fields_column (Literal.isField_ofNatHex _ _),
    Text.fields_padLeft (Literal.isField_ofNat _), Text.fields_padRight c.kind.isField_word]

/-- A row is read back, whatever it says of its chunk. -/
theorem ofRow?_row (c : Chunk) : ofRow? c.row = some c.entry := by
  rw [ofRow?, fields_row]
  simp only [Literal.unbounded?_ofInt, Literal.ofDigits?_ofNatHex, Literal.ofDigits?_ofNat,
    ChunkKind.ofWord?_word]
  rfl

end ChunkEntry

/-- The value of a field of an object. -/
def Json.field? (name : String) : Json → Option Json
  | .object fields => fields.lookup name.toList
  | _ => none

namespace ChunkEntry

/-- The entry that an object of a summary gives. -/
def ofJson? (object : Json) : Option ChunkEntry :=
  match object.field? "line", object.field? "position", object.field? "length",
    object.field? "kind" with
  | some (.int line), some (.int (.ofNat position)), some (.int (.ofNat length)),
    some (.text kind) => (ChunkKind.ofWord? kind).map (⟨line, position, length, ·⟩)
  | _, _, _, _ => none

/-- The object of a chunk is read back, whatever else it gives. -/
theorem ofJson?_summary (c : Chunk) : ofJson? c.summary = some c.entry := by
  -- The fields of its place stand first in the object of any chunk.
  have hplace (kind : ChunkKind) (line : Int) (position length : Nat)
      (more : List (Text × Json)) :
      ofJson? (.object (Chunk.placeFields kind line position length ++ more)) =
        some ⟨line, position, length, kind⟩ := by
    show (ChunkKind.ofWord? kind.word.toList).map _ = _
    rw [ChunkKind.ofWord?_word]
    rfl
  obtain ⟨path, position, line, length, content⟩ := c
  cases content with
  | comment text =>
    rw [Chunk.summary]
    exact hplace ..
  | statement s =>
    rw [Chunk.summary]
    exact hplace ..
  | macroDef m =>
    obtain ⟨name, parameters, body, valid⟩ := m
    rw [Chunk.summary]
    exact hplace ..

end ChunkEntry

/-! ### Listings -/

/-- A row has no line break if what it says of its chunk has none. -/
theorem Chunk.newline_notMem_row {c : Chunk} (h : '\n' ∉ c.detail) : '\n' ∉ c.row := by
  have hspaces (k : Nat) : '\n' ∉ List.replicate k ' ' := fun hmem =>
    absurd (List.eq_of_mem_replicate hmem) (by decide)
  -- A column is a field, filled up with spaces or with zeros.
  have hfield {word : Text} (hword : Text.IsField word) : '\n' ∉ word := hword.notMem (by decide)
  intro hmem
  obtain ⟨part, hpart, hmem⟩ := mem_of_mem_intercalate (by decide) hmem
  simp only [List.mem_cons, List.not_mem_nil, or_false] at hpart
  rcases hpart with rfl | rfl | rfl | rfl | rfl
  · exact (List.mem_append.mp hmem).elim (hspaces _) (hfield (Literal.isField_ofInt _))
  · exact hfield (Literal.isField_ofNatHex _ _) hmem
  · exact (List.mem_append.mp hmem).elim (hspaces _) (hfield (Literal.isField_ofNat _))
  · exact (List.mem_append.mp hmem).elim (hfield c.kind.isField_word) (hspaces _)
  · exact h hmem

namespace Catalog

/-- The listing of a file, cut at its line breaks, is the title, the head, one row for each
top-level chunk, and the totals, with nothing behind the last line break.  The rows and the
objects of the summary give the entries of these chunks in order. -/
structure ListsEntries (file : Catalog) : Prop where
  head : listingHead.length = 2
  rows : ∃ rows,
    file.listing.splitOn '\n' = file.path.text :: listingHead ++ rows ++ [file.totals, []] ∧
      rows.length = file.chunks.size ∧
      rows.map ChunkEntry.ofRow? = file.chunks.toList.map (some ·.entry)
  objects : ∃ objects, file.summary.field? "chunks" = some (.list objects) ∧
    objects.map ChunkEntry.ofJson? = file.chunks.toList.map (some ·.entry)

theorem newline_notMem_totals (f : Catalog) : '\n' ∉ f.totals := by
  have hchunks : '\n' ∉ " chunks, ".toList := by decide
  have hconstants : '\n' ∉ " constants".toList := by decide
  simp only [totals, List.mem_append, not_or]
  exact ⟨⟨⟨newline_notMem_ofNat _, hchunks⟩, newline_notMem_ofNat _⟩, hconstants⟩

variable {settings : Import.Settings} {path : SourcePath} {source : Source} {start : Nat}
  {stopped : Bool} {file : Catalog}

/-- The chunks of an import are in the order of their lines. -/
theorem byLine_of_ofSource
    (h : (ofSource settings path source start stopped).result = .ok file) :
    file.byLine = file.chunks.toList := by
  obtain ⟨entries, g, hscan, rfl, hchunks⟩ := exists_entries h
  rw [byLine, hchunks]
  -- The listing sorts by lines only, which leaves chunks alone that are sorted already.
  refine List.mergeSort_of_pairwise (hscan.ordered.imp fun {a b} hab => decide_eq_true ?_)
  exact Int.le_of_lt (hab a a.mem_all_self b b.mem_all_self).2.2

/-- The listing of an import can be read back and agrees with the summary, whatever the source
holds and wherever it was started.  The files that it sees came of imports as well. -/
theorem listsEntries_of_ofSource
    (h : (ofSource settings path source start stopped).result = .ok file)
    (hincludes : ∀ f ∈ settings.includes, f.Imported) (hpath : '\n' ∉ path.text) :
    file.ListsEntries := by
  have hrows : ∀ row ∈ file.chunks.toList.map Chunk.row, '\n' ∉ row := by
    intro row hrow
    obtain ⟨c, hc, rfl⟩ := List.mem_map.mp hrow
    exact Chunk.newline_notMem_row (newline_notMem_detail h hincludes hc)
  have hhead : ∀ line ∈ listingHead, '\n' ∉ line := by decide
  have hlines : ∀ line ∈ file.listingLines, '\n' ∉ line := by
    rw [listingLines, byLine_of_ofSource h, path_of_ofSource h]
    simp only [List.mem_append, List.mem_cons, List.not_mem_nil, or_false]
    rintro line (((rfl | hline) | hline) | rfl)
    · exact hpath
    · exact hhead line hline
    · exact hrows line hline
    · exact newline_notMem_totals file
  refine ⟨rfl, ⟨file.chunks.toList.map Chunk.row, ?_, ?_, ?_⟩,
    file.chunks.toList.map Chunk.summary, ?_, ?_⟩
  · have hcut := Text.splitOn_lines hlines []
    rw [List.append_nil] at hcut
    rw [listing, hcut, listingLines, byLine_of_ofSource h, List.append_assoc]
    rfl
  · rw [List.length_map, ChunkSet.toList, List.length_reverse, ChunkSet.size]
  · rw [List.map_map]
    exact List.map_congr_left fun c _ => ChunkEntry.ofRow?_row c
  · rw [summary, byLine_of_ofSource h]
    rfl
  · rw [List.map_map]
    exact List.map_congr_left fun c _ => ChunkEntry.ofJson?_summary c

/-- The definition of a macro. -/
def tabledInclude : Bytes :=
  Utf8.encode ['w', ' ', 'm', 'a', 'c', 'r', 'o', '\n', 'e', 'n', 'd', 'm', '\n']

/-- Behind a line that is left out, a comment that begins with a digit, a macro with a blank line
in it, a call of it with spaces, and a call of a macro of the include without arguments. -/
def tabledSource : Bytes :=
  Utf8.encode
    ['x', '\n', ';', ' ', '1', ' ', ' ', '2', '\r', '\n', 'm', ' ', 'm', 'a', 'c', 'r', 'o', ' ',
      'p', '\n', '\n', 'e', 'n', 'd', 'm', '\n', 'm', ' ', '<', '9', ' ', '0', '>', '\n', 'w', '\n']

theorem listsEntries_of_ofSource_tabledSource :
    ∃ included file,
      (ofSource {} ⟨['i']⟩ (.ofBytes tabledInclude) 0 false).result = .ok included ∧
      (ofSource { includes := [included] } ⟨['a']⟩ (.ofBytes tabledSource) 2 false).result =
        .ok file ∧
      file.ListsEntries ∧
      file.chunks.toList.map (String.ofList ·.row) =
        ["   0  000002     6  comment  1 2", "   1  00000A    16  macro    m(p) 2 body lines",
          "   4  00001A     8  line     m! p=9 0", "   5  000022     2  line     w! "] := by
  obtain ⟨included, hincluded⟩ := exists_ok_ofBytes ⟨['i']⟩ .legacy [] tabledInclude 0
  obtain ⟨file, hfile⟩ := exists_ok_ofBytes ⟨['a']⟩ .legacy [included] tabledSource 2
  have himported : ∀ f ∈ [included], f.Imported := by
    rintro f hf
    rw [List.mem_singleton.mp hf]
    exact ⟨_, _, _, _, _, hincluded⟩
  refine ⟨included, file, hincluded, hfile,
    listsEntries_of_ofSource hfile himported (by decide), ?_⟩
  have hrows : ((ofSource {} ⟨['i']⟩ (.ofBytes tabledInclude) 0 false).result.toOption.bind
      fun included => (ofSource { includes := [included] } ⟨['a']⟩ (.ofBytes tabledSource) 2
        false).result.toOption.map fun file => file.chunks.toList.map (String.ofList ·.row)) =
      some ["   0  000002     6  comment  1 2", "   1  00000A    16  macro    m(p) 2 body lines",
        "   4  00001A     8  line     m! p=9 0", "   5  000022     2  line     w! "] := by
    decide +kernel
  have hsame : (ofSource {} ⟨['i']⟩ (.ofBytes tabledInclude) 0 false).result = .ok included :=
    hincluded
  have hsame' : (ofSource { includes := [included] } ⟨['a']⟩ (.ofBytes tabledSource) 2
      false).result = .ok file := hfile
  rw [hsame, Except.toOption, Option.bind_some, hsame'] at hrows
  exact Option.some.inj hrows

end Catalog

end AsmCatalog
