/-
An import of reliable bytes catalogs the outline of their lines.

By induction on the outline each body takes the lines that the outline gives to it, and
the top level takes the others.  Nothing interrupts such an import, so it succeeds.

Main statements:
* `Import.body_eq` — what the import makes of the lines of a body;
* `Import.scan_eq` — what it makes of the lines of a source;
* `Catalog.ofSource_ofBytes` — what a whole import gives.
-/
import AsmCatalog.Proofs.ReliableLine

namespace AsmCatalog

namespace Import

/-! ### Bodies -/

section Body

variable {bytes : Bytes} {f : FileContext} {l : PhysicalLine} {rest : List PhysicalLine}
  {s : State}

/-- The state in which the line `l` has been looked at. -/
def State.peeked (s : State) (l : PhysicalLine) : State :=
  { s with cursor := { s.cursor with lastLength := l.contentLength } }

theorem Stands.peeked (h : Stands bytes f (l :: rest) s) :
    Stands bytes f (l :: rest) (s.peeked l) :=
  ⟨h.source, h.running, h.lines, h.path, h.constants, h.chunks⟩

theorem Took.of_peeked {taken : List PhysicalLine} {events : List Event} {s' : State}
    (h : Took f taken events (s.peeked l) s') : Took f taken events s s' :=
  ⟨h.position, h.chunks, h.constants, h.events⟩

theorem Took.refl (f : FileContext) (s : State) : Took f [] [] s s :=
  ⟨rfl, rfl, (List.append_nil _).symm, (List.append_nil _).symm⟩

theorem checkInterrupt_apply {lines : List PhysicalLine} (h : Stands bytes f lines s) :
    checkInterrupt f.settings s = .ok () s := by
  rw [checkInterrupt, bind_apply, get_apply]
  simp only [h.running]
  rfl

theorem body_nil (h : Stands bytes f [] s) (fuel : Nat) (taken : List (Option Chunk)) :
    body f.settings fuel taken s = .ok (taken.reverse, false) s := by
  cases fuel with
  | zero => rfl
  | succ fuel =>
    rw [body, bind_apply, reading_atEnd h]
    rfl

theorem body_cons (h : Stands bytes f (l :: rest) s) (fuel : Nat)
    (taken : List (Option Chunk)) :
    body f.settings (fuel + 1) taken s =
      (chunk f.settings (body f.settings fuel []) >>= fun entry =>
        if l.ends then pure ((entry :: taken).reverse, true)
        else body f.settings fuel (entry :: taken)) (s.peeked l) := by
  rw [body, bind_apply, reading_atEnd h]
  simp only [List.cons_ne_nil, decide_false, Bool.false_eq_true, if_false]
  rw [bind_apply, checkInterrupt_apply h]
  simp only []
  rw [bind_apply, reading_peekLine h]
  rfl

end Body

theorem exists_fuel {l : PhysicalLine} {rest : List PhysicalLine} {fuel : Nat}
    (h : (l :: rest).length ≤ fuel) : ∃ k, fuel = k + 1 ∧ rest.length ≤ k := by
  rcases fuel with _ | k
  · exact absurd h (Nat.not_succ_le_zero _)
  · exact ⟨k, rfl, Nat.le_of_succ_le_succ h⟩

/-- What the import makes of the lines of a body. -/
theorem body_eq {bytes : Bytes} {f : FileContext} {lines left : List PhysicalLine}
    {o : Outline} {ended : Bool} (hb : BodyOutline lines o ended left) :
    ∀ {s : State} {fuel : Nat} (taken : List (Option Chunk)), Stands bytes f lines s →
      lines.length ≤ fuel →
      ∃ s', body f.settings fuel taken s =
          .ok (taken.reverse ++ o.entries (f.behind s.catalog.chunks.toList), ended) s' ∧
        Stands bytes f left s' ∧
        Took f o.lines (o.events (f.behind s.catalog.chunks.toList)) s s' := by
  -- The fuel bounds the lines that are left, so a nested body, which gets one unit less,
  -- and what comes behind it both have enough.
  induction hb with
  | nil =>
    intro s fuel taken h _
    refine ⟨s, ?_, h, Took.refl f s⟩
    rw [body_nil h, Outline.entries_nil, List.append_nil]
  | lastLine hkind hends =>
    intro s fuel taken h hfuel
    obtain ⟨fuel, rfl, hrest⟩ := exists_fuel hfuel
    obtain ⟨s', hs', hstands, htook⟩ :=
      chunk_line h.peeked hkind (body f.settings fuel [])
    refine ⟨s', ?_, hstands, ?_⟩
    · rw [body_cons h, bind_apply, hs']
      simp only [hends, if_true, List.reverse_cons]
      rfl
    · rw [Outline.events, Outline.events, List.append_nil]
      exact htook.of_peeked
  | line hkind hends _ ih =>
    intro s fuel taken h hfuel
    obtain ⟨fuel, rfl, hrest⟩ := exists_fuel hfuel
    obtain ⟨s₁, hs₁, hstands₁, htook₁⟩ :=
      chunk_line h.peeked hkind (body f.settings fuel [])
    have hchunks : s₁.catalog.chunks = s.catalog.chunks := htook₁.chunks
    obtain ⟨s', hs', hstands, htook⟩ := ih (_ :: taken) hstands₁ hrest
    rw [hchunks] at hs' htook
    refine ⟨s', ?_, hstands, htook₁.of_peeked.trans htook⟩
    rw [body_cons h, bind_apply, hs₁]
    simp only [hends, Bool.false_eq_true, if_false]
    rw [hs', List.reverse_cons, List.append_assoc]
    rfl
  | lastDefinition hkind hends _ ih =>
    intro s fuel taken h hfuel
    obtain ⟨fuel, rfl, hrest⟩ := exists_fuel hfuel
    obtain ⟨s₁, hs₁, hstands₁, htook₁⟩ :=
      ih [] h.peeked.past hrest
    obtain ⟨s', hs', hstands, htook⟩ := chunk_definition h.peeked hkind hs₁ hstands₁ htook₁
    refine ⟨s', ?_, hstands, ?_⟩
    · rw [body_cons h, bind_apply, hs']
      simp only [hends, if_true, List.reverse_cons]
      rfl
    · rw [Outline.lines, Outline.lines, List.append_nil]
      exact htook.of_peeked
  | definition hkind hends hbody _ ihb ihn =>
    -- The nested body is gathered from nothing, the lines behind it onto `taken`.
    intro s fuel taken h hfuel
    obtain ⟨fuel, rfl, hrest⟩ := exists_fuel hfuel
    obtain ⟨s₁, hs₁, hstands₁, htook₁⟩ := ihb [] h.peeked.past hrest
    obtain ⟨s₂, hs₂, hstands₂, htook₂⟩ :=
      chunk_definition h.peeked hkind hs₁ hstands₁ htook₁
    have hchunks : s₂.catalog.chunks = s.catalog.chunks := htook₂.chunks
    obtain ⟨s', hs', hstands, htook⟩ :=
      ihn (_ :: taken) hstands₂ (Nat.le_trans hbody.length_left_le hrest)
    rw [hchunks] at hs' htook
    refine ⟨s', ?_, hstands, ?_⟩
    · rw [body_cons h, bind_apply, hs₂]
      simp only [hends, Bool.false_eq_true, if_false]
      rw [hs', List.reverse_cons, List.append_assoc]
      rfl
    · rw [Outline.events_definition]
      exact htook₂.of_peeked.trans htook

/-! ### Whole sources -/

/-- A chunk behind all others comes last. -/
theorem toList_insert_of_before {chunks : ChunkSet} {c : Chunk}
    (h : ∀ d ∈ chunks.toList, d.path = c.path ∧ d.position < c.position) :
    (chunks.insert c).toList = chunks.toList ++ [c] := by
  obtain ⟨descending, sorted⟩ := chunks
  have hplace : ChunkSet.place c descending = c :: descending := by
    cases descending with
    | nil => rfl
    | cons d rest =>
      obtain ⟨hpath, hpos⟩ := h d (by simp [ChunkSet.toList])
      -- The greatest key so far comes first, and it is all that is compared.
      have hgt : compare c.key d.key = .gt := by
        have hself : compare c.path c.path = .eq := Std.compare_self
        have hposition : compare c.position d.position = .gt := Nat.compare_eq_gt.mpr hpos
        rw [ChunkKey.compare_eq]
        simp only [compareLex, compareOn, Chunk.key, hpath, hself, hposition, Ordering.eq_then,
          Ordering.gt_then]
      rw [ChunkSet.place, hgt]
  simp only [ChunkSet.insert, hplace, ChunkSet.toList, List.reverse_cons]

theorem scan_cons {bytes : Bytes} {f : FileContext} {l : PhysicalLine}
    {rest : List PhysicalLine} {s : State} (h : Stands bytes f (l :: rest) s) (fuel : Nat) :
    scan f.settings (fuel + 1) s =
      match chunk f.settings (body f.settings fuel []) s with
      | .ok none s' => scan f.settings fuel s'
      | .ok (some c) s' => scan f.settings fuel { s' with catalog := s'.catalog.add c }
      | .error e s' => .error e s' := by
  rw [scan, bind_apply, reading_atEnd h]
  simp only [List.cons_ne_nil, decide_false, Bool.false_eq_true, if_false]
  rw [bind_apply, checkInterrupt_apply h]
  simp only []
  rw [bind_apply]
  rcases chunk f.settings (body f.settings fuel []) s with ⟨_ | c, s'⟩ | ⟨e, s'⟩ <;> rfl

/-- The state in which a chunk has been added to the catalog, if there is one. -/
def State.added (s : State) (e : Option Chunk) : State :=
  match e with
  | none => s
  | some c => { s with catalog := s.catalog.add c }

/-- A chunk that begins at the next line goes behind the chunks that were found. -/
theorem Stands.added {bytes : Bytes} {f : FileContext} {l : PhysicalLine}
    {rest more left : List PhysicalLine} {s s₁ : State} {e : Option Chunk}
    {events : List Event} (h : Stands bytes f (l :: rest) s) (hstands : Stands bytes f left s₁)
    (htook : Took f (l :: more) events s s₁)
    (he : ∀ c, e = some c → c.path = f.path ∧ c.position = l.position) :
    (s₁.added e).catalog.chunks.toList = s.catalog.chunks.toList ++ e.toList ∧
      Stands bytes f left (s₁.added e) := by
  cases e with
  | none =>
    refine ⟨?_, hstands⟩
    rw [Option.toList_none, List.append_nil, ← htook.chunks]
    rfl
  | some c =>
    obtain ⟨hpath, hposition⟩ := he c rfl
    obtain ⟨-, hp, -, hlt, -⟩ := h.first
    have hbefore : ∀ d ∈ s.catalog.chunks.toList, d.path = c.path ∧ d.position < c.position := by
      intro d hd
      obtain ⟨hdpath, hdpos⟩ := h.chunks d hd
      exact ⟨hdpath.trans hpath.symm, by omega⟩
    have hbehind : c.position < s₁.cursor.position := by
      rw [htook.position, extent_cons]
      rw [PhysicalLine.stop] at hlt
      omega
    have hlist : (s₁.added (some c)).catalog.chunks.toList =
        s.catalog.chunks.toList ++ [c] := by
      show (s₁.catalog.chunks.insert c).toList = _
      rw [htook.chunks]
      exact toList_insert_of_before hbefore
    refine ⟨hlist, hstands.source, hstands.running, hstands.lines, hstands.path,
      hstands.constants, fun d hd => ?_⟩
    rw [hlist] at hd
    rcases List.mem_append.mp hd with hd | hd
    · exact hstands.chunks d (htook.chunks ▸ hd)
    · rw [List.mem_singleton.mp hd]
      exact ⟨hpath, hbehind⟩

/-- What a scan makes of a chunk that begins at the next line. -/
theorem scan_step {bytes : Bytes} {f : FileContext} {l : PhysicalLine}
    {rest more left : List PhysicalLine} {s s₁ : State} {fuel : Nat} {e : Option Chunk}
    {events : List Event} (h : Stands bytes f (l :: rest) s)
    (hchunk : chunk f.settings (body f.settings fuel []) s = .ok e s₁)
    (hstands : Stands bytes f left s₁) (htook : Took f (l :: more) events s s₁)
    (he : ∀ c, e = some c → c.path = f.path ∧ c.position = l.position) :
    ∃ s₂, scan f.settings (fuel + 1) s = scan f.settings fuel s₂ ∧ Stands bytes f left s₂ ∧
      s₂.catalog.chunks.toList = s.catalog.chunks.toList ++ e.toList ∧
      s₂.catalog.constants = s.catalog.constants ++ constantsOf f.path f.mode (l :: more) ∧
      s₂.events.toList = s.events.toList ++ events := by
  obtain ⟨hlist, hstands'⟩ := h.added hstands htook he
  refine ⟨s₁.added e, ?_, hstands', hlist, ?_, ?_⟩
  · rw [scan_cons h, hchunk]
    cases e <;> rfl
  · rw [← htook.constants]
    cases e <;> rfl
  · rw [← htook.events]
    cases e <;> rfl

/-- What a scan from `s` to `s'` has made of the lines of an outline. -/
structure Scanned (f : FileContext) (o : Outline) (s s' : State) : Prop where
  running : s'.cursor.stopped = false
  path : s'.catalog.path = f.path
  chunks : s'.catalog.chunks.toList = o.chunksBehind f s.catalog.chunks.toList
  constants : s'.catalog.constants = s.catalog.constants ++ constantsOf f.path f.mode o.lines
  events : s'.events.toList = s.events.toList ++ o.eventsBehind f s.catalog.chunks.toList

/-- What the import makes of the lines of a source. -/
theorem scan_eq {bytes : Bytes} {f : FileContext} {lines : List PhysicalLine} {o : Outline}
    (ho : FileOutline lines o) :
    ∀ {s : State} {fuel : Nat}, Stands bytes f lines s → lines.length ≤ fuel →
      ∃ s', scan f.settings fuel s = .ok () s' ∧ Scanned f o s s' := by
  induction ho with
  | nil =>
    intro s fuel h _
    refine ⟨s, ?_, h.running, h.path, rfl, (List.append_nil _).symm, (List.append_nil _).symm⟩
    cases fuel with
    | zero => rfl
    | succ fuel =>
      rw [scan, bind_apply, reading_atEnd h]
      rfl
  | line hkind _ ih =>
    intro s fuel h hfuel
    obtain ⟨fuel, rfl, hrest⟩ := exists_fuel hfuel
    obtain ⟨s₁, hs₁, hstands₁, htook₁⟩ := chunk_line h hkind (body f.settings fuel [])
    obtain ⟨s₂, hs₂, hstands₂, hchunks, hconstants, hevents⟩ :=
      scan_step h hs₁ hstands₁ htook₁ fun c hc =>
        ⟨(PhysicalLine.place_of_entry hkind hc).1, (PhysicalLine.place_of_entry hkind hc).2.1⟩
    obtain ⟨s', hs', hscanned⟩ := ih hstands₂ hrest
    refine ⟨s', hs₂.trans hs', hscanned.running, hscanned.path, ?_, ?_, ?_⟩
    · rw [hscanned.chunks, hchunks]
      rfl
    · rw [hscanned.constants, hconstants, List.append_assoc, ← constantsOf_append]
      rfl
    · rw [hscanned.events, hevents, hchunks, List.append_assoc, Outline.eventsBehind,
        Outline.events, Outline.events, List.append_nil]
  | definition hkind hbody _ ih =>
    intro s fuel h hfuel
    obtain ⟨fuel, rfl, hrest⟩ := exists_fuel hfuel
    obtain ⟨s₀, hs₀, hstands₀, htook₀⟩ := body_eq hbody [] h.past hrest
    obtain ⟨s₁, hs₁, hstands₁, htook₁⟩ := chunk_definition h hkind hs₀ hstands₀ htook₀
    obtain ⟨s₂, hs₂, hstands₂, hchunks, hconstants, hevents⟩ :=
      scan_step h hs₁ hstands₁ htook₁ fun c hc =>
        ⟨(Outline.place_of_definition? hc).1, (Outline.place_of_definition? hc).2.1⟩
    obtain ⟨s', hs', hscanned⟩ := ih hstands₂ (Nat.le_trans hbody.length_left_le hrest)
    refine ⟨s', hs₂.trans hs', hscanned.running, hscanned.path, ?_, ?_, ?_⟩
    · rw [hscanned.chunks, hchunks]
      rfl
    · rw [hscanned.constants, hconstants, List.append_assoc, ← constantsOf_append]
      rfl
    · rw [hscanned.events, hevents, hchunks, List.append_assoc]
      rfl

/-- The state in which an import of reliable bytes begins. -/
def State.initial (f : FileContext) (bytes : Bytes) (start : Nat) : State :=
  { cursor := { source := .ofBytes bytes, position := start }, catalog := { path := f.path } }

theorem stands_initial (f : FileContext) (bytes : Bytes) (start : Nat) :
    Stands bytes f (physicalLines bytes start) (State.initial f bytes start) where
  source := rfl
  running := rfl
  lines := rfl
  path := rfl
  constants := fun _ hc => absurd hc List.not_mem_nil
  chunks := fun _ hc => absurd hc List.not_mem_nil

theorem run_of_scan {settings : Settings} {s s' : State}
    (h : scan settings (s.cursor.source.capacity + 1) s = .ok () s') :
    run settings s =
      .ok () { s' with events := s'.events.push (.imported s'.catalog.path
        s'.catalog.chunks.size s'.catalog.constants.length) } := by
  rw [run, bind_apply, get_apply]
  simp only []
  rw [bind_apply, h]
  rfl

end Import

/-- A run that succeeds gives the catalog and the events of its last state. -/
theorem Catalog.ofSource_of_run {settings : Import.Settings} {path : SourcePath}
    {source : Source} {start : Nat} {stopped : Bool} {s : Import.State}
    (hmovable : source.immovable = none)
    (hrun : Import.run settings ⟨⟨source, start, 0, stopped⟩, -1, { path }, #[]⟩ = .ok () s) :
    Catalog.ofSource settings path source start stopped =
      ⟨.ok s.catalog, s.events.toList, s.cursor.stopped⟩ := by
  rw [ofSource, Cursor.open?, hmovable]
  simp only [hrun]

/-- An import of reliable bytes that nothing interrupts succeeds, and gives what the
outline of the lines makes. -/
theorem Catalog.ofSource_ofBytes (f : FileContext) (bytes : Bytes) (start : Nat)
    {o : Outline} (ho : FileOutline (physicalLines bytes start) o) :
    ∃ file : Catalog,
      Catalog.ofSource f.settings f.path (.ofBytes bytes) start false =
        ⟨.ok file, o.eventsBehind f [] ++
          [.imported f.path file.chunks.size file.constants.length], false⟩ ∧
      file.path = f.path ∧ file.chunks.toList = o.chunksBehind f [] ∧
      file.constants = constantsOf f.path f.mode (physicalLines bytes start) := by
  -- Every line has a byte, so the fuel is enough.
  have hfuel : (physicalLines bytes start).length ≤ (Source.ofBytes bytes).capacity + 1 := by
    have hle := length_linesFrom_le bytes start 0
    have hcap : (Source.ofBytes bytes).capacity = bytes.length := Nat.max_eq_left (Nat.zero_le _)
    rw [physicalLines]
    omega
  obtain ⟨s', hs', hscanned⟩ :=
    Import.scan_eq ho (Import.stands_initial f bytes start) hfuel
  have hrun := Import.run_of_scan (s := Import.State.initial f bytes start) hs'
  refine ⟨s'.catalog, ?_, hscanned.path, hscanned.chunks, ?_⟩
  · rw [ofSource_of_run rfl hrun]
    simp only [Array.toList_push, hscanned.events, hscanned.path, hscanned.running]
    rfl
  · rw [hscanned.constants, ho.lines_eq]
    exact List.nil_append _

end AsmCatalog
