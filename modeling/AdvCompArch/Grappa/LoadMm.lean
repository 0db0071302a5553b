import AdvCompArch.Grappa.MatrixMarket

/-! # Loading a Matrix Market file

    Where the entries have values, `load_mm` reads each entry once if the borders of the
    chunks are kind, as `load_tsv` does.  In a `pattern` file the entries have none, but the
    loop reads one all the same: it takes the row of the next entry, and goes on with the
    column of that entry as a row.  So every core may read one entry at most. -/

namespace Grappa

open List Relay

open TupleGraph (Edge)
open DecimalText InStream TextChunks

namespace MatrixMarket

variable {too_large : List Char → Bool} {field : Field} {e : Entry}

theorem not_newline_of_isSpace {l : List Char} (h : ∀ c ∈ l, isSpace c = false) : '\n' ∉ l :=
  fun hmem => absurd (h _ hmem) (by decide)

theorem Value.Fits.not_newline {v : Value} (h : v.Fits too_large field) : '\n' ∉ v.text := by
  cases v with
  | none => exact nofun
  | real sep x =>
    have hsep : Separates sep := by
      cases field with
      | real | double => exact h.1
      | integer | pattern => exact h.elim
    simp only [Value.text, mem_append, not_or]
    exact ⟨hsep.not_newline, not_newline_of_isSpace fun c hc => x.not_isSpace_of_mem hc⟩
  | integer sep x =>
    have hsep : Separates sep := by
      cases field with
      | integer => exact h.1
      | real | double | pattern => exact h.elim
    simp only [Value.text, mem_append, not_or]
    exact ⟨hsep.not_newline, not_newline_of_isSpace fun c hc => x.not_isSpace_of_mem hc⟩

theorem Entry.Ok.not_newline (h : e.Ok too_large field) : '\n' ∉ e.body := by
  simp only [Entry.body, mem_append, not_or]
  exact ⟨not_newline_of_isSpace fun c hc => e.row.not_isSpace_of_mem hc, h.sep.not_newline,
    not_newline_of_isSpace fun c hc => e.column.not_isSpace_of_mem hc, h.value.not_newline⟩

theorem Entry.head (e : Entry) : ∃ c t, e.body = c :: t ∧ isSpace c = false ∧ c ≠ '#' := by
  obtain ⟨c, t, ht, hc, hcomment, -⟩ := e.row.exists_cons
  exact ⟨c, t ++ (e.sep ++ (e.column.text ++ e.value.text)), by simp [Entry.body, ht], hc, hcomment⟩

theorem Entry.Ok.read_entry_eq (h : e.Ok too_large field) (data : InStream → InStream)
    {blanks : List Char} (hblanks : ∀ c ∈ blanks, isSpace c = true) (rest : List Char)
    (hrest : Blank (e.value.text ++ rest)) :
    read_entry data ⟨blanks ++ (e.body ++ rest), true⟩ =
      some (e.edge, data ⟨e.value.text ++ rest, e.value.text ++ rest ≠ []⟩) := by
  have hread := @read_entry_numerals data e.row e.column h.row h.column blanks e.sep
    (e.value.text ++ rest) hblanks h.sep.isSpace h.sep.1 hrest
  simpa [Entry.body, Entry.edge] using hread

theorem Entry.Ok.reads (h : e.Ok too_large field) (hfield : field ≠ .pattern) {info : HeaderInfo}
    (hinfo : info.field_double = decide (field = .real ∨ field = .double)) :
    Reads (read_data too_large info) e.body e.edge := by
  constructor
  case head => exact e.head
  case no_newline => exact h.not_newline
  case read =>
    intro blanks rest hblanks hrest
    have hvalue := h.value
    have hread := h.read_entry_eq (read_data too_large info) hblanks rest
    cases hv : e.value with
    | none =>
      rw [hv] at hvalue
      cases field with
      | pattern => exact absurd rfl hfield
      | real | double | integer => exact hvalue.elim
    | real sep x =>
      rw [hv] at hvalue hread
      have hdouble : info.field_double = true ∧ Separates sep ∧ too_large x.text = false := by
        cases field with
        | real | double => exact ⟨hinfo, hvalue⟩
        | integer | pattern => exact hvalue.elim
      obtain ⟨hdouble, hsep, hx⟩ := hdouble
      simp only [Value.text, append_assoc] at hread
      rw [hread (hsep.blank _), decide_eq_true (hsep.append_ne_nil _), read_data, if_pos hdouble,
        readReal_numeral x hsep.isSpace hx hrest]
    | integer sep x =>
      rw [hv] at hvalue hread
      have hdouble : info.field_double = false ∧ Separates sep ∧ InRange x.value := by
        cases field with
        | integer => exact ⟨hinfo, hvalue⟩
        | real | double | pattern => exact hvalue.elim
      obtain ⟨hdouble, hsep, hx⟩ := hdouble
      simp only [Value.text, append_assoc] at hread
      rw [hread (hsep.blank _), decide_eq_true (hsep.append_ne_nil _), read_data, hdouble,
        if_neg Bool.false_ne_true, readInt_numeral x hx hsep.isSpace hrest]

theorem Entry.Ok.value_eq (h : e.Ok too_large .pattern) : e.value = .none := by
  have hvalue := h.value
  cases hv : e.value with
  | none => rfl
  | real sep x | integer sep x =>
    rw [hv] at hvalue
    exact hvalue.elim

theorem Entry.Ok.reads_id (h : e.Ok too_large .pattern) : Reads id e.body e.edge := by
  constructor
  case head => exact e.head
  case no_newline => exact h.not_newline
  case read =>
    intro blanks rest hblanks hrest
    have hread := h.read_entry_eq id hblanks rest
    rw [h.value_eq] at hread
    exact hread hrest

theorem Entry.Ok.isGap (h : e.Ok too_large field) : IsGap e.gap false := by
  constructor
  · exact fun _ => h.gap
  · exact nofun
  · intro front rest heq
    apply Comments.blanks
    intro c hc
    exact h.gap c (by simp [heq, hc])

theorem Entry.Ok.exists_gap (h : e.Ok too_large field) :
    ∃ c t, e.gap = c :: t ∧ isSpace c = true := by
  obtain ⟨c, t, hgap⟩ := exists_cons_of_ne_nil (ne_nil_of_mem h.newline)
  exact ⟨c, t, hgap, h.gap c (by simp [hgap])⟩

end MatrixMarket

namespace MatrixMarketFile

open MatrixMarket

variable {too_large : List Char → Bool} (f : MatrixMarketFile too_large)

/-- The file as a text that the loop reads. -/
def recordText (data : InStream → InStream) (hreads : ∀ e ∈ f.entries, Reads data e.body e.edge) :
    RecordText data where
  header := f.header
  items := f.entries.map Entry.item
  last := f.last
  last_blocked := false
  gaps := by
    intro i hi
    obtain ⟨e, he, rfl⟩ := List.mem_map.mp hi
    exact (f.entries_ok e he).isGap
  last_gap := by
    refine ⟨fun _ => f.last_ok, nofun, ?_⟩
    intro front h heq
    exact Comments.blanks fun c hc => f.last_ok c (by simp [heq, hc])
  bodies := by
    intro i hi
    obtain ⟨e, he, rfl⟩ := List.mem_map.mp hi
    exact hreads e he
  blank_gaps := by
    intro i hi
    obtain ⟨e, he, rfl⟩ := List.mem_map.mp (List.mem_of_mem_tail hi)
    exact (f.entries_ok e he).exists_gap
  blank_last := fun _ c hc => f.last_ok c (List.mem_of_head? hc)
  starts_line := by
    intro hnil
    have hhead := (firstLine_spec f.field f.symmetry f.sep_ok f.tail_ok).2
    rw [header, List.append_eq_nil_iff] at hnil
    rw [hnil.1] at hhead
    cases hhead

/-- The bytes behind the header. -/
def file_size : ℕ := f.text.length - (f.header.length + 1)

/-- The chunks of the cores, when they fetch and add in this order. -/
def chunks {cores : ℕ} (order : List (Fin cores)) : List (ℤ × ℤ) :=
  TextChunks.chunks f.file_size f.header.length order

variable {f} {cores : ℕ} {order : List (Fin cores)}

theorem header_lt (f : MatrixMarketFile too_large) : f.header.length + 1 ≤ f.text.length := by
  obtain ⟨t, ht⟩ := f.exists_entriesText
  rw [text, ht, length_append, length_cons]
  omega

/-- **The cores read their chunks** behind the header, if the offset of its end fits. -/
theorem load_mm_eq (f : MatrixMarketFile too_large) (hheader : f.header.length + 1 < 2 ^ 31)
    (order : List (Fin cores)) : load_mm too_large f.text order =
      read_chunks (read_data too_large f.info) f.text (f.chunks order) := by
  have hlt := f.header_lt
  unfold load_mm
  rw [f.read_header_eq, Option.bind_some, f.info_header_end_offset hheader, chunks, file_size]
  have hsize : ((f.text.length : ℤ) - (f.header.length + 1)).toNat =
      f.text.length - (f.header.length + 1) := by omega
  rw [hsize, add_sub_cancel_right]

theorem tiled (f : MatrixMarketFile too_large) (hcores : 0 < cores)
    (horder : order.Perm (List.finRange cores)) :
    Tiled f.header.length (f.text.length - 1) (f.chunks order) := by
  have h : Tiled _ _ (f.chunks order) := tiled_chunks (f.header.length : ℤ) order
  rw [sum_my_bytes hcores horder] at h
  have hlt := f.header_lt
  have hhi : (f.header.length : ℤ) + f.file_size = f.text.length - 1 := by
    rw [file_size]
    omega
  rwa [hhi] at h

/-! ### Files with values -/

/-- **The entries of a file with values** are read, each once, exactly if at each of them one core
    starts, or a core gets there that has started before, but not both. -/
theorem values_iff (f : MatrixMarketFile too_large) (hfield : f.field ≠ .pattern)
    (hheader : f.header.length + 1 < 2 ^ 31) (hcores : 0 < cores)
    (horder : order.Perm (List.finRange cores)) :
    (∃ l, load_mm too_large f.text order = some l ∧ l.Perm f.edges) ↔
      ∀ pre r post, f.records = pre ++ r :: post →
        Relay.Once layout ((f.chunks order).map (reader f.text)) pre.getLast? r := by
  have hinfo : f.info.field_double = decide (f.field = .real ∨ f.field = .double) := rfl
  have hreads : ∀ e ∈ f.entries, Reads (read_data too_large f.info) e.body e.edge :=
    fun e he => (f.entries_ok e he).reads hfield hinfo
  have hhi : (f.text.length : ℤ) - 1 ≤ (f.recordText _ hreads).text.length := by
    have : (f.recordText _ hreads).text = f.text := rfl
    rw [this]
    omega
  rw [f.load_mm_eq hheader]
  exact (f.recordText _ hreads).read_chunks_perm_iff (f.tiled hcores horder) le_rfl hhi

/-! ### Files without values -/

/-- A reader that starts at every record that it reads. -/
def firstLayout : Relay.Layout Record := { layout with blocked := fun _ => true }

/-- The row of the entry after the first one of a core ends behind the chunk of the core, or there
    is nothing behind the column of that entry. -/
def OnlyFirst (f : MatrixMarketFile too_large) (c : ℤ × ℤ) : Prop :=
  ∀ pre p q post, f.records.zip f.entries = pre ++ p :: q :: post →
    Relay.Starts firstLayout (reader f.text c) (pre.getLast?.map Prod.fst) p.1 →
      c.2 ≤ q.1.offset + q.2.row.text.length ∨ (post = [] ∧ f.last = [])

/-- What the loop reads behind an entry of a `pattern` file. -/
def skip_number (infile : InStream) : InStream := (infile.readInt 0).2

theorem length_skip_number (s : InStream) : (skip_number s).rest.length ≤ s.rest.length :=
  length_readInt_le.1

theorem read_data_pattern (hfield : f.field = .pattern) :
    read_data too_large f.info = skip_number := by
  funext s
  have hdouble : f.info.field_double = decide (f.field = .real ∨ f.field = .double) := rfl
  rw [hfield] at hdouble
  rw [read_data, hdouble]
  rfl

/-- The loop behind the column of the last entry. -/
theorem read_loop_after_last {size fuel : ℕ} {end_offset : ℤ} {last : List Char}
    (hlast : ∀ c ∈ last, isSpace c = true) (hfuel : last.length < fuel) :
    read_loop skip_number size end_offset fuel
      ((skip_number ⟨last, last ≠ []⟩).tellg size) (skip_number ⟨last, last ≠ []⟩) = some [] := by
  obtain ⟨fuel, rfl⟩ : ∃ k, fuel = k + 1 := ⟨fuel - 1, by omega⟩
  have hbad : (skip_number ⟨last, last ≠ []⟩).good = false := by
    by_cases hnil : last = []
    · rw [skip_number, readInt_of_not_good (by simp [hnil])]
      simp [hnil]
    · rw [decide_eq_true hnil, skip_number, readInt_blanks hlast]
  rw [read_loop, hbad, if_neg]
  intro h
  cases h.1

/-- What a core reads wrongly after its first entry: the entries are `l`, the first of them starts
    behind its gap at `pos`, and its row has been read for a value. -/
structure Wrong (end_offset pos : ℤ) (last : List Char) (e : Entry) (l : List Entry)
    (extra : List Found) : Prop where
  none : end_offset ≤ pos + e.gap.length + e.row.text.length ∨ (l = [] ∧ last = []) → extra = []
  some : ¬(end_offset ≤ pos + e.gap.length + e.row.text.length ∨ (l = [] ∧ last = [])) →
    ∃ x ∈ extra, x.1 = pos + e.gap.length + e.row.text.length + e.sep.length

/-- **The loop behind the column of an entry** has read the row of the next, and takes the column
    of that for a row. -/
theorem read_loop_after {size fuel : ℕ} {end_offset pos : ℤ} {e : Entry} {l : List Entry}
    (he : e.Ok too_large .pattern) (hl : ∀ d ∈ l, d.Ok too_large .pattern) {last : List Char}
    (hlast : ∀ c ∈ last, isSpace c = true)
    (hsize : (size : ℤ) = pos + (itemsText last ((e :: l).map Entry.item)).length)
    (hfuel : (itemsText last ((e :: l).map Entry.item)).length < fuel) :
    ∃ extra, read_loop skip_number size end_offset fuel
        ((skip_number ⟨itemsText last ((e :: l).map Entry.item), true⟩).tellg size)
        (skip_number ⟨itemsText last ((e :: l).map Entry.item), true⟩) = some extra ∧
      Wrong end_offset pos last e l extra := by
  obtain ⟨fuel, rfl⟩ : ∃ k, fuel = k + 1 := ⟨fuel - 1, by omega⟩
  have hvalue : e.value.text = [] := by rw [he.value_eq, Value.text]
  -- the text behind the row of `e`
  have htext : itemsText last ((e :: l).map Entry.item) =
      e.gap ++ (e.row.text ++ (e.sep ++ (e.column.text ++ itemsText last (l.map Entry.item)))) := by
    simp [itemsText, Entry.item, Entry.body, hvalue]
  have hrest : Blank (itemsText last (l.map Entry.item)) := by
    cases l with
    | nil => exact fun c hc => hlast c (mem_of_head? hc)
    | cons d l =>
      obtain ⟨c, t, hgap, hc⟩ := (hl d mem_cons_self).exists_gap
      intro x hx
      rw [map_cons, itemsText, Entry.item, hgap] at hx
      cases hx
      exact hc
  have hnil : itemsText last (l.map Entry.item) = [] ↔ l = [] ∧ last = [] := by
    cases l with
    | nil => simp [itemsText]
    | cons d l =>
      obtain ⟨c, t, hgap, -⟩ := (hl d mem_cons_self).exists_gap
      simp [itemsText, Entry.item, hgap]
  generalize itemsText last (l.map Entry.item) = rest at htext hrest hnil
  have hskip : skip_number ⟨itemsText last ((e :: l).map Entry.item), true⟩ =
      ⟨e.sep ++ (e.column.text ++ rest), true⟩ := by
    rw [htext, skip_number, readInt_numeral e.row he.row he.gap (he.sep.blank _),
      decide_eq_true (he.sep.append_ne_nil _)]
  rw [htext] at hsize hfuel
  simp only [length_append] at hsize hfuel
  push_cast at hsize
  have htell : InStream.tellg size ⟨e.sep ++ (e.column.text ++ rest), true⟩ =
      pos + e.gap.length + e.row.text.length := by
    rw [InStream.tellg, if_pos rfl]
    simp only [length_append]
    push_cast
    omega
  rw [hskip, htell, read_loop]
  by_cases hgo : pos + e.gap.length + e.row.text.length < end_offset
  · have hhead : (e.sep ++ (e.column.text ++ rest)).head? ≠ some '#' :=
      head_ne_comment (he.sep.blank _)
    have hcolumn : ∀ v, readInt v ⟨e.sep ++ (e.column.text ++ rest), true⟩ =
        (e.column.value, ⟨rest, rest ≠ []⟩) := fun v =>
      readInt_numeral e.column he.column he.sep.isSpace hrest
    rw [if_pos ⟨rfl, hgo⟩, if_neg hhead, read_entry, hcolumn]
    by_cases hr : rest = []
    · -- the column is the end of the file
      have hgood : ¬decide (rest ≠ []) = true := by simp [hr]
      dsimp only
      rw [if_neg hgood]
      exact ⟨[], rfl, fun _ => rfl, fun h => absurd (.inr (hnil.mp hr)) h⟩
    · have hgood : decide (rest ≠ []) = true := decide_eq_true hr
      dsimp only
      rw [if_pos hgood]
      dsimp only
      have hshort : (skip_number (readInt (-1) ⟨rest, decide (rest ≠ [])⟩).2).rest.length < fuel := by
        have h1 := length_skip_number (readInt (-1) ⟨rest, decide (rest ≠ [])⟩).2
        have h2 := (@length_readInt_le (-1) ⟨rest, decide (rest ≠ [])⟩).1
        have h3 : (InStream.mk rest (decide (rest ≠ []))).rest.length = rest.length := rfl
        have h4 := length_pos_of_ne_nil he.sep.1
        omega
      obtain ⟨more, hmore⟩ := @exists_read_loop skip_number size fuel end_offset length_skip_number
        ((skip_number (readInt (-1) ⟨rest, decide (rest ≠ [])⟩).2).tellg size) _ hshort
      rw [hmore]
      refine ⟨_, rfl, ?_, ?_⟩
      · intro h
        exact absurd h (not_or.mpr ⟨by omega, fun h => hr (hnil.mpr h)⟩)
      · intro _
        refine ⟨_, mem_cons_self, ?_⟩
        obtain ⟨c, t, ht, hc, -⟩ := e.column.exists_cons
        have hdrop : (e.sep ++ (e.column.text ++ rest)).dropWhile isSpace = e.column.text ++ rest := by
          rw [ht, cons_append, dropWhile_blanks he.sep.isSpace hc]
        rw [hdrop, length_append]
        push_cast
        omega
  · rw [if_neg fun h => hgo h.2]
    exact ⟨[], rfl, fun _ => rfl, fun h => absurd (.inl (by omega)) h⟩

theorem length_records {pos : ℤ} (items : List Item) :
    (TextChunks.records pos items).length = items.length := by
  induction items generalizing pos with
  | nil => rfl
  | cons i l ih => rw [TextChunks.records, length_cons, length_cons, ih]

theorem sorted (f : MatrixMarketFile too_large) :
    f.records.Pairwise fun r s => r.offset < s.offset := by
  apply records_sorted
  intro i hi hnil
  obtain ⟨e, he, rfl⟩ := mem_map.mp hi
  obtain ⟨c, t, hbody, -⟩ := e.head
  rw [show e.item.body = e.body from rfl, hbody] at hnil
  cases hnil

/-- Where a core starts, its records are not dropped. -/
theorem dropWhile_of_split {c : Relay.Reader} {Z pre post : List (Record × Entry)}
    {p : Record × Entry} (hsorted : (Z.map Prod.fst).Pairwise fun r s => r.offset < s.offset)
    (hZ : Z = pre ++ p :: post) (hs : Starts firstLayout c (pre.getLast?.map Prod.fst) p.1) :
    (Z.map Prod.fst).dropWhile (fun r => decide (firstLayout.start r < c.first)) =
      p.1 :: post.map Prod.fst := by
  rw [hZ, map_append, map_cons] at hsorted ⊢
  exact dropWhile_of_starts hsorted getLast?_map hs

theorem split_unique {c : Relay.Reader} {Z pre pre' : List (Record × Entry)}
    {p p' : Record × Entry} {post post' : List (Record × Entry)}
    (hsorted : (Z.map Prod.fst).Pairwise fun r s => r.offset < s.offset)
    (hZ : Z = pre ++ p :: post) (hZ' : Z = pre' ++ p' :: post')
    (h : Relay.Starts firstLayout c (pre.getLast?.map Prod.fst) p.1)
    (h' : Relay.Starts firstLayout c (pre'.getLast?.map Prod.fst) p'.1) :
    p = p' ∧ post = post' := by
  have heq := congrArg length
    ((dropWhile_of_split hsorted hZ h).symm.trans (dropWhile_of_split hsorted hZ' h'))
  simp only [length_cons, length_map] at heq
  have hlen := congrArg length (hZ.symm.trans hZ')
  simp only [length_append, length_cons] at hlen
  have hsplit := append_inj_right (hZ.symm.trans hZ') (by omega)
  exact cons.inj hsplit

theorem fresh_first (c : Relay.Reader) (r : Record) (l : List Record) :
    Relay.fresh firstLayout c (r :: l) = [r] := by
  cases l with
  | nil => rfl
  | cons s l =>
    have hblocked : ¬(firstLayout.reach r < c.stop ∧ firstLayout.blocked s = false) := by
      simp [firstLayout]
    rw [fresh, follow, if_neg hblocked]

/-- The column is behind the offset of its entry, and before its end. -/
theorem column_ne_offset {pre : List Record} {p : ℤ} {e : Entry} {es : List Entry}
    (he : e.Ok too_large .pattern) (hsorted : (pre ++ TextChunks.records p
      ((e :: es).map Entry.item)).Pairwise fun r s => r.offset < s.offset) :
    ∀ r ∈ pre ++ TextChunks.records p ((e :: es).map Entry.item),
      p + e.gap.length + e.row.text.length + e.sep.length ≠ r.offset := by
  intro r hr
  have hsep := length_pos_of_ne_nil he.sep.1
  have hbody : e.item.body.length = e.row.text.length + (e.sep.length + e.column.text.length) := by
    simp [Entry.item, Entry.body, he.value_eq, Value.text]
  have hcolumn : 0 < e.column.text.length := by
    obtain ⟨y, t, ht, -⟩ := e.column.exists_cons
    simp [ht]
  have hgap : e.item.gap = e.gap := rfl
  simp only [map_cons, TextChunks.records, hgap] at hr hsorted
  rcases mem_append.mp hr with hr | hr
  · have hlt := (pairwise_append.mp hsorted).2.2 r hr _ mem_cons_self
    dsimp only at hlt
    omega
  · rcases mem_cons.mp hr with rfl | hr
    · dsimp only
      omega
    · have hle := le_offset_of_mem hr
      omega

theorem length_records_eq : f.records.length = f.entries.length := by
  rw [records, length_records, length_map]

theorem sorted_zip : ((f.records.zip f.entries).map Prod.fst).Pairwise fun r s => r.offset < s.offset := by
  rw [map_fst_zip f.length_records_eq.le]
  exact f.sorted

/-- A core has one entry to look at. -/
theorem onlyFirst_iff {c : ℤ × ℤ} {pre : List (Record × Entry)} {p q : Record × Entry}
    {post : List (Record × Entry)} (hZ : f.records.zip f.entries = pre ++ p :: q :: post)
    (hs : Relay.Starts firstLayout (reader f.text c) (pre.getLast?.map Prod.fst) p.1) :
    f.OnlyFirst c ↔ c.2 ≤ q.1.offset + q.2.row.text.length ∨ (post = [] ∧ f.last = []) := by
  refine ⟨fun h => h _ _ _ _ hZ hs, fun h pre' p' q' post' hZ' hs' => ?_⟩
  obtain ⟨-, hpost⟩ := split_unique f.sorted_zip hZ hZ' hs hs'
  obtain ⟨rfl, rfl⟩ := cons.inj hpost
  exact h

/-- **What a core reads of a `pattern` file**: its first entry, and then wrong ones if the row of
    the next entry ends in its chunk. -/
theorem pattern_chunk (hfield : f.field = .pattern) {c : ℤ × ℤ} (hlo : f.header.length ≤ c.1)
    (hhi : c.2 ≤ f.text.length) : ∃ extra, read_chunk skip_number f.text c.1 c.2 =
        some ((Relay.reads firstLayout (reader f.text c) f.records).map Record.found ++ extra) ∧
      (f.OnlyFirst c → extra = []) ∧
      (¬f.OnlyFirst c → ∃ x ∈ extra, ∀ r ∈ f.records, x.1 ≠ r.offset) := by
  have hok : ∀ e ∈ f.entries, e.Ok too_large .pattern := fun e he => hfield ▸ f.entries_ok e he
  have hcases := (f.recordText id fun e he => (hok e he).reads_id).read_chunk_cases skip_number hlo hhi
  change (¬(reader f.text c).first < (reader f.text c).stop ∧
      read_chunk skip_number f.text c.1 c.2 = some []) ∨
    ((reader f.text c).first < (reader f.text c).stop ∧ ∃ rest,
      Resumes id f.text.length f.last (f.entries.map Entry.item)
        (f.records.dropWhile fun r => decide (r.offset < (reader f.text c).first)) rest ∧
      rest.length < f.text.length + 1 ∧
      read_chunk skip_number f.text c.1 c.2 = read_loop skip_number f.text.length
        (reader f.text c).stop (f.text.length + 1) (reader f.text c).first ⟨rest, true⟩) at hcases
  have hlen := f.length_records_eq
  have hfst := map_fst_zip hlen.le
  have hsorted := f.sorted_zip
  rw [reads]
  obtain ⟨hinactive, hread⟩ | ⟨hactive, rest, hresumes, hfuel, hread⟩ := hcases
  · refine ⟨[], by rw [hread, if_neg hinactive]; rfl, fun _ => rfl, ?_⟩
    intro h
    exact absurd (fun pre p q post _ hs => absurd hs.1 hinactive) h
  rw [if_pos hactive, hread]
  generalize hrecs : f.records.dropWhile (fun r => decide (r.offset < (reader f.text c).first)) =
    recs at hresumes
  have hfresh : fresh firstLayout (reader f.text c) (f.records.dropWhile fun r =>
      decide (firstLayout.start r < (reader f.text c).first)) =
      fresh firstLayout (reader f.text c) recs := by
    rw [← hrecs]
    rfl
  rw [hfresh]
  cases hresumes with
  | last hh =>
    refine ⟨[], read_loop_last hh hfuel, fun _ => rfl, ?_⟩
    intro h
    refine absurd (fun pre p q post hZ hs => ?_) h
    have hdrop := dropWhile_of_split hsorted hZ hs
    rw [hfst] at hdrop
    cases hrecs.symm.trans hdrop
  | @item h i l pos hh hbody hfollows hsuffix hsize =>
    obtain ⟨t, ht⟩ := hsuffix
    obtain ⟨A, B, hentries, -, hB⟩ := map_eq_append_iff.mp ht.symm
    obtain ⟨e, es, rfl, rfl, rfl⟩ := map_eq_cons_iff.mp hB
    have he : e.Ok too_large .pattern := hok e (by simp [hentries])
    have hes : ∀ d ∈ es, d.Ok too_large .pattern := fun d hd => hok d (by simp [hentries, hd])
    have hblank := hfollows.blank
    obtain ⟨fuel', hfuel', hloop⟩ := @read_loop_entry skip_number f.text.length (f.text.length + 1)
      (reader f.text c).stop pos h e.item.body (itemsText f.last (es.map Entry.item)) hh e.edge
      (skip_number ⟨itemsText f.last (es.map Entry.item), itemsText f.last (es.map Entry.item) ≠ []⟩)
      e.head (fun blanks hblanks => by
        have hentry := he.read_entry_eq skip_number hblanks (itemsText f.last (es.map Entry.item))
        rw [he.value_eq] at hentry
        exact hentry hblank) _ hactive hsize hfuel
    rw [hloop]
    -- where the core starts
    obtain ⟨preR, hpreR, hstarts⟩ := @starts_of_dropWhile _ firstLayout (reader f.text c)
      f.records _ _ hactive hrecs
    have hlenA : preR.length = A.length := by
      rw [hpreR, hentries] at hlen
      simp only [length_append, length_cons, length_records, length_map] at hlen
      omega
    have hsplit : f.records.zip f.entries = preR.zip A ++
        (⟨pos, pos + e.item.body.length, e.item.blocked, e.item.edge⟩, e) ::
          (TextChunks.records (pos + e.item.body.length) (es.map Entry.item)).zip es := by
      rw [hpreR, hentries, zip_append hlenA, zip_cons_cons]
    have hstarts' : Starts firstLayout (reader f.text c)
        ((preR.zip A).getLast?.map Prod.fst) ⟨pos, pos + e.item.body.length, e.item.blocked, e.item.edge⟩ := by
      rwa [← getLast?_map, map_fst_zip hlenA.le]
    rw [fresh_first]
    cases es with
    | nil =>
      have hlast := @read_loop_after_last f.text.length fuel' (reader f.text c).stop f.last f.last_ok
        hfuel'
      refine ⟨[], ?_, fun _ => rfl, ?_⟩
      · simp only [map_nil, itemsText]
        rw [hlast]
        rfl
      · intro h
        refine absurd (fun pre p q post hZ hs => ?_) h
        have hpost := (split_unique hsorted hZ hsplit hs hstarts').2
        cases hpost
    | cons e' es =>
      have he' := hes e' mem_cons_self
      have hne : itemsText f.last ((e' :: es).map Entry.item) ≠ [] := by
        obtain ⟨x, t, hgap, -⟩ := he'.exists_gap
        simp [itemsText, Entry.item, hgap]
      rw [length_append] at hsize
      obtain ⟨extra, hextra, hwrong⟩ := @read_loop_after too_large f.text.length fuel'
        (reader f.text c).stop (pos + e.item.body.length) e' es he'
        (fun d hd => hes d (mem_cons_of_mem _ hd)) f.last f.last_ok
        (by rw [hsize]; push_cast; omega) hfuel'
      rw [decide_eq_true hne, hextra]
      have honly : f.OnlyFirst c ↔ (reader f.text c).stop ≤
          pos + e.item.body.length + e'.gap.length + e'.row.text.length ∨ (es = [] ∧ f.last = []) := by
        rw [f.onlyFirst_iff hsplit hstarts', zipWith_eq_nil_iff, ← length_eq_zero_iff, length_records,
          length_map, length_eq_zero_iff, or_self]
        rfl
      refine ⟨extra, rfl, fun h => hwrong.none (honly.mp h), ?_⟩
      intro h
      obtain ⟨x, hx, hoffset⟩ := hwrong.some (mt honly.mpr h)
      refine ⟨x, hx, ?_⟩
      have hsortedR := f.sorted
      rw [hpreR, append_cons] at hsortedR
      rw [hpreR, append_cons, hoffset]
      exact column_ne_offset he' hsortedR

theorem pattern_chunks (hfield : f.field = .pattern) {cs : List (ℤ × ℤ)}
    (hcs : ∀ c ∈ cs, (f.header.length : ℤ) ≤ c.1 ∧ c.2 ≤ f.text.length) :
    ∃ l, read_chunks skip_number f.text cs = some l ∧
      ((∀ c ∈ cs, f.OnlyFirst c) → l = (cs.flatMap fun c =>
        Relay.reads firstLayout (reader f.text c) f.records).map Record.found) ∧
      (¬(∀ c ∈ cs, f.OnlyFirst c) → ∃ x ∈ l, ∀ r ∈ f.records, x.1 ≠ r.offset) := by
  induction cs with
  | nil => exact ⟨[], rfl, fun _ => rfl, fun h => absurd nofun h⟩
  | cons c cs ih =>
    have hc := hcs c mem_cons_self
    obtain ⟨extra, hread, hnone, hsome⟩ := pattern_chunk hfield hc.1 hc.2
    obtain ⟨l, hl, hall, hex⟩ := ih fun d hd => hcs d (mem_cons_of_mem _ hd)
    refine ⟨_, by rw [read_chunks, hread, hl]; rfl, ?_, ?_⟩
    · intro h
      rw [hnone (h c mem_cons_self), hall fun d hd => h d (mem_cons_of_mem _ hd)]
      simp
    · intro h
      by_cases hone : f.OnlyFirst c
      · obtain ⟨x, hx, hoffset⟩ := hex fun hrest => h fun d hd => by
          rcases mem_cons.mp hd with rfl | hd
          · exact hone
          · exact hrest d hd
        exact ⟨x, mem_append_right _ hx, hoffset⟩
      · obtain ⟨x, hx, hoffset⟩ := hsome hone
        exact ⟨x, mem_append_left _ (mem_append_right _ hx), hoffset⟩

/-- **The entries of a `pattern` file** are read, each once, exactly if one core starts at each of
    them, and no core goes on. -/
theorem pattern_iff (f : MatrixMarketFile too_large) (hfield : f.field = .pattern)
    (hheader : f.header.length + 1 < 2 ^ 31) (hcores : 0 < cores)
    (horder : order.Perm (List.finRange cores)) :
    (∃ l, load_mm too_large f.text order = some l ∧ l.Perm f.edges) ↔
      (∀ c ∈ f.chunks order, f.OnlyFirst c) ∧
      ∀ pre r post, f.records = pre ++ r :: post →
        Relay.Once firstLayout ((f.chunks order).map (reader f.text)) pre.getLast? r := by
  have htiled := f.tiled hcores horder
  have hcs : ∀ c ∈ f.chunks order, (f.header.length : ℤ) ≤ c.1 ∧ c.2 ≤ f.text.length := by
    intro c hc
    have := htiled.bounds c hc
    omega
  obtain ⟨l, hl, hall, hex⟩ := pattern_chunks hfield hcs
  have hmono := @reader_mono f.text _ _ _ htiled
  have hsub : ∀ r ∈ (f.chunks order).flatMap fun c =>
      reads firstLayout (reader f.text c) f.records, r ∈ f.records := by
    intro r hr
    obtain ⟨c, -, hc⟩ := mem_flatMap.mp hr
    exact reads_subset hc
  have hperm := map_found_perm_iff f.sorted hsub
  have hiff := @perm_reads_iff _ firstLayout _ f.records hmono f.sorted
  rw [flatMap_map] at hiff
  rw [f.load_mm_eq hheader, read_data_pattern hfield, hl]
  by_cases honly : ∀ c ∈ f.chunks order, f.OnlyFirst c
  · rw [hall honly, ← hiff, ← hperm]
    constructor
    · intro h
      obtain ⟨l', hl', hp⟩ := h
      cases hl'
      exact ⟨honly, hp⟩
    · exact fun h => ⟨_, rfl, h.2⟩
  · -- a wrong edge is no entry
    constructor
    · intro h
      obtain ⟨l', hl', hp⟩ := h
      cases hl'
      obtain ⟨x, hx, hoffset⟩ := hex honly
      obtain ⟨r, hr, hxr⟩ := mem_map.mp (hp.subset hx)
      exact absurd (congrArg Prod.fst hxr).symm (hoffset r hr)
    · exact fun h => absurd h.1 honly

/-- **Every entry is owned by one core**: one core starts there, or a core gets there, but not both.
    In a `pattern` file no core gets to another entry, but some read it wrongly. -/
def OwnedOnce (f : MatrixMarketFile too_large) (order : List (Fin cores)) : Prop :=
  (f.field = .pattern → ∀ c ∈ f.chunks order, f.OnlyFirst c) ∧
    ∀ pre r post, f.records = pre ++ r :: post →
      Relay.Once (if f.field = .pattern then firstLayout else layout)
        ((f.chunks order).map (reader f.text)) pre.getLast? r

end MatrixMarketFile

/-- **Exactly when a Matrix Market file is read completely**, whatever the number of cores and the
    order in which they fetch the offsets of their chunks. -/
theorem load_mm_iff {too_large : List Char → Bool} (f : MatrixMarketFile too_large)
    (hheader : f.header.length + 1 < 2 ^ 31) {cores : ℕ} (hcores : 0 < cores)
    {order : List (Fin cores)} (horder : order.Perm (List.finRange cores)) :
    (∃ l, load_mm too_large f.text order = some l ∧ l.Perm f.edges) ↔ f.OwnedOnce order := by
  rw [MatrixMarketFile.OwnedOnce]
  by_cases hfield : f.field = .pattern
  · rw [f.pattern_iff hfield hheader hcores horder, if_pos hfield, imp_iff_right hfield]
  · rw [f.values_iff hfield hheader hcores horder, if_neg hfield]
    exact ⟨fun h => ⟨fun h' => absurd h' hfield, h⟩, fun h => h.2⟩

namespace MatrixMarketFile

open MatrixMarket

/-- An entry on a line of its own. -/
def line (row column : ℕ) (value : Value) : Entry := ⟨['\n'], .ofNat row, [' '], .ofNat column, value⟩

theorem separates_blank : Separates [' '] :=
  ⟨cons_ne_nil _ _, forall_mem_singleton.mpr (.inl rfl)⟩

theorem line_ok {too_large : List Char → Bool} {field : Field} {row column : ℕ} {value : Value}
    (hrow : InRange (Numeral.ofNat row).value) (hcolumn : InRange (Numeral.ofNat column).value)
    (hvalue : value.Fits too_large field) : (line row column value).Ok too_large field where
  gap := forall_mem_singleton.mpr rfl
  newline := mem_singleton_self _
  row := hrow
  column := hcolumn
  sep := separates_blank
  value := hvalue

/-- Three entries without values. -/
def three_pairs : MatrixMarketFile fun _ => false where
  field := .pattern
  symmetry := .general
  sep := fun _ => [' ']
  tail := []
  sep_ok := fun _ => separates_blank
  tail_ok := nofun
  comments := []
  comments_ok := nofun
  dimensions := "3 3 3".toList
  dimensions_ok := by decide +kernel
  entries := [line 1 2 .none, line 2 3 .none, line 3 1 .none]
  entries_ok := by
    intro e he
    simp only [List.mem_cons, List.not_mem_nil, or_false] at he
    rcases he with rfl | rfl | rfl <;>
      exact line_ok (by decide +kernel) (by decide +kernel) trivial
  last := ['\n']
  last_ok := List.forall_mem_singleton.mpr rfl
  end_of_header := ⟨[], rfl⟩

/-- On one core two edges are read, and the second of them is none of the entries. -/
theorem three_pairs_on_one_core :
    ¬∃ l, load_mm (fun _ => false) three_pairs.text (List.finRange 1) = some l ∧
      (l.map Prod.snd).Perm (three_pairs.edges.map Prod.snd) := by
  have hload : (load_mm (fun _ => false) three_pairs.text (finRange 1)).map (map Prod.snd) =
      some [⟨1, 2⟩, ⟨3, 3⟩] := by decide +kernel
  have hedges : three_pairs.edges.map Prod.snd = [⟨1, 2⟩, ⟨2, 3⟩, ⟨3, 1⟩] := by decide +kernel
  intro h
  obtain ⟨l, hl, hperm⟩ := h
  rw [hl] at hload
  rw [Option.some.inj hload, hedges] at hperm
  have hlen := hperm.length_eq
  cases hlen

/-- Two entries with values. -/
def two_values : MatrixMarketFile fun _ => false where
  field := .integer
  symmetry := .general
  sep := fun _ => [' ']
  tail := []
  sep_ok := fun _ => separates_blank
  tail_ok := nofun
  comments := []
  comments_ok := nofun
  dimensions := "2 2 2".toList
  dimensions_ok := by decide +kernel
  entries := [line 1 2 (.integer [' '] (.ofNat 7)), line 2 1 (.integer [' '] (.ofNat 8))]
  entries_ok := by
    intro e he
    simp only [List.mem_cons, List.not_mem_nil, or_false] at he
    rcases he with rfl | rfl <;>
      exact line_ok (by decide +kernel) (by decide +kernel) ⟨separates_blank, by decide +kernel⟩
  last := ['\n']
  last_ok := List.forall_mem_singleton.mpr rfl
  end_of_header := ⟨[], rfl⟩

theorem two_values_on_one_core :
    ∃ l, load_mm (fun _ => false) two_values.text [(0 : Fin 1)] = some l ∧ l.Perm two_values.edges := by
  have hheader : two_values.header.length + 1 < 2 ^ 31 := by decide +kernel
  apply (load_mm_iff two_values hheader Nat.one_pos (by decide)).mpr
  have hrecords : two_values.records =
      [⟨55, 60, false, ⟨1, 2⟩⟩, ⟨61, 66, false, ⟨2, 1⟩⟩] := by decide +kernel
  have hreaders : (two_values.chunks [(0 : Fin 1)]).map (reader two_values.text) = [⟨55, 66⟩] := by
    decide +kernel
  refine ⟨nofun, ?_⟩
  intro pre r post hsplit
  rw [hreaders]
  rw [hrecords] at hsplit
  obtain _ | ⟨p, _ | ⟨q, pre⟩⟩ := pre
  all_goals
    simp only [nil_append, cons_append, cons.injEq, nil_eq, append_eq_nil_iff,
      reduceCtorEq, and_false] at hsplit
  · obtain ⟨rfl, -⟩ := hsplit
    decide +kernel
  · obtain ⟨rfl, rfl, -⟩ := hsplit
    decide +kernel

end MatrixMarketFile

end Grappa
