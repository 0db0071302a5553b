import AdvCompArch.Grappa.TextChunks

/-! # Matrix Market files

    A coordinate file has a first line that says what is in it, comments, a line with the
    dimensions, and a line for each entry.  `load_mm` reads the lines up to the dimensions on
    one core, and the entries in chunks, on all cores. -/

namespace Grappa

open List Option

open TupleGraph (Edge)
open DecimalText InStream TextChunks

namespace MatrixMarket

/-! ### Reading the header -/

structure HeaderInfo where
  header_end_offset : ℤ := 0
  field_double : Bool := false
  field_default_value : Bool := false
  field_bidir : Bool := false
  deriving DecidableEq

/-- The field type; `none` stands for a fatal error. -/
def read_field (tmp : List Char) (info : HeaderInfo) : Option HeaderInfo :=
  if tmp = "real".toList ∨ tmp = "double".toList then
    some { info with field_double := true }
  else if tmp = "integer".toList then
    some { info with field_double := false }
  else if tmp = "pattern".toList then
    some { info with field_double := false, field_default_value := true }
  else none

/-- The symmetry. -/
def read_symmetry (tmp : List Char) (info : HeaderInfo) : Option HeaderInfo :=
  if tmp = "symmetric".toList ∨ tmp = "hermitian".toList ∨ tmp = "skew-symmetric".toList then
    some { info with field_bidir := true }
  else if tmp = "general".toList then
    some { info with field_bidir := false }
  else none

/-- `ss >> tmp` and a check of what was read. -/
def read_expected (word tmp : List Char) (ss : InStream) : Option (List Char × InStream) :=
  let r := readWord tmp ss
  if r.1 = word then some r else none

/-- The first line; `none` if a check fails. -/
def read_first_line (s : List Char) (info : HeaderInfo) : Option HeaderInfo :=
  (read_expected "%%MatrixMarket".toList [] ⟨s, true⟩).bind fun r =>
    (read_expected "matrix".toList r.1 r.2).bind fun r =>
      (read_expected "coordinate".toList r.1 r.2).bind fun r =>
        let r := readWord r.1 r.2
        (read_field r.1 info).bind fun info =>
          let r := readWord r.1 r.2
          read_symmetry r.1 info

/-- "read all comment lines"; the stream afterwards is behind the line with the dimensions.
    `none` if a check fails, or if the loop does not end. -/
def read_comments : ℕ → ℕ → HeaderInfo → List Char → InStream → Option (HeaderInfo × InStream)
  | 0, _, _, _, _ => none
  | fuel + 1, line, info, s, infile =>
    let r := infile.getline s
    if r.1.head? = some '%' then
      if line = 0 then
        (read_first_line r.1 info).bind fun info => read_comments fuel (line + 1) info r.1 r.2
      else read_comments fuel (line + 1) info r.1 r.2
    else some (info, r.2)

/-- The header; its end is kept in an `int`. -/
def read_header (text : List Char) : Option HeaderInfo :=
  (read_comments (text.length + 1) 0 {} [] ⟨text, true⟩).map fun r =>
    { r.1 with header_end_offset := (r.2.tellg text.length).bmod (2 ^ 32) }

/-- What is read behind the ids of an entry. -/
def read_data (too_large : List Char → Bool) (info : HeaderInfo) (infile : InStream) : InStream :=
  if info.field_double then infile.readReal too_large else (infile.readInt 0).2

end MatrixMarket

/-- `TupleGraph::load_mm`, up to the edges that the cores have read. -/
def load_mm (too_large : List Char → Bool) {cores : ℕ} (text : List Char)
    (order : List (Fin cores)) : Option (List Found) :=
  (MatrixMarket.read_header text).bind fun info =>
    let file_size := ((text.length : ℤ) - info.header_end_offset).toNat
    read_chunks (MatrixMarket.read_data too_large info) text
      (chunks file_size (info.header_end_offset - 1) order)

namespace MatrixMarket

/-! ### The files -/

inductive Field where
  | real | double | integer | pattern
  deriving DecidableEq

def Field.name : Field → List Char
  | .real => "real".toList
  | .double => "double".toList
  | .integer => "integer".toList
  | .pattern => "pattern".toList

inductive Symmetry where
  | general | symmetric | hermitian | skew_symmetric
  deriving DecidableEq

def Symmetry.name : Symmetry → List Char
  | .general => "general".toList
  | .symmetric => "symmetric".toList
  | .hermitian => "hermitian".toList
  | .skew_symmetric => "skew-symmetric".toList

/-- Blanks between the words of a line. -/
def Separates (sep : List Char) : Prop := sep ≠ [] ∧ ∀ c ∈ sep, c = ' ' ∨ c = '\t'

/-- The value of an entry, with the blanks before it. -/
inductive Value where
  | none
  | real (sep : List Char) (x : RealNumeral)
  | integer (sep : List Char) (x : Numeral)

def Value.text : Value → List Char
  | .none => []
  | .real sep x => sep ++ x.text
  | .integer sep x => sep ++ x.text

/-- An entry has a value of the kind that the header says. -/
def Value.Fits (too_large : List Char → Bool) : Field → Value → Prop
  | .pattern, .none => True
  | .integer, .integer sep x => Separates sep ∧ InRange x.value
  | .real, .real sep x | .double, .real sep x => Separates sep ∧ too_large x.text = false
  | _, _ => False

/-- An entry, and the blanks and ends of lines before it. -/
structure Entry where
  gap : List Char
  row : Numeral
  sep : List Char
  column : Numeral
  value : Value

structure Entry.Ok (too_large : List Char → Bool) (field : Field) (e : Entry) : Prop where
  gap : ∀ c ∈ e.gap, isSpace c = true
  newline : '\n' ∈ e.gap
  row : InRange e.row.value
  column : InRange e.column.value
  sep : Separates e.sep
  value : e.value.Fits too_large field

def Entry.body (e : Entry) : List Char := e.row.text ++ (e.sep ++ (e.column.text ++ e.value.text))

def Entry.edge (e : Entry) : Edge := ⟨e.row.value, e.column.value⟩

/-- The words of the first line, with what separates them. -/
def firstLine (field : Field) (symmetry : Symmetry) (sep : ℕ → List Char) (tail : List Char) :
    List Char :=
  "%%MatrixMarket".toList ++ (sep 0 ++ ("matrix".toList ++ (sep 1 ++ ("coordinate".toList ++
    (sep 2 ++ (field.name ++ (sep 3 ++ (symmetry.name ++ tail))))))))

end MatrixMarket

open MatrixMarket in
/-- A well-formed coordinate file. -/
structure MatrixMarketFile (too_large : List Char → Bool) where
  field : Field
  symmetry : Symmetry
  /-- What separates the words of the first line. -/
  sep : ℕ → List Char
  tail : List Char
  sep_ok : ∀ i, Separates (sep i)
  tail_ok : ∀ c ∈ tail, c = ' ' ∨ c = '\t'
  comments : List (List Char)
  comments_ok : ∀ c ∈ comments, '\n' ∉ c
  /-- The line with the dimensions. -/
  dimensions : List Char
  dimensions_ok : '\n' ∉ dimensions ∧ dimensions.head? ≠ some '%'
  entries : List Entry
  entries_ok : ∀ e ∈ entries, e.Ok too_large field
  /-- What follows the last entry. -/
  last : List Char
  last_ok : ∀ c ∈ last, isSpace c = true
  /-- The line with the dimensions has an end. -/
  end_of_header : ∃ t, (entries.head?.map Entry.gap).getD last = '\n' :: t

namespace MatrixMarket

variable {too_large : List Char → Bool}

/-- An entry as the text that a loop reads. -/
def Entry.item (e : Entry) : Item := ⟨e.gap, false, e.body, e.edge⟩

end MatrixMarket

namespace MatrixMarketFile

open MatrixMarket

variable {too_large : List Char → Bool} (f : MatrixMarketFile too_large)

/-- The lines up to the one with the dimensions, without its end. -/
def header : List Char :=
  firstLine f.field f.symmetry f.sep f.tail ++
    '\n' :: ((f.comments.flatMap fun c => '%' :: c ++ ['\n']) ++ f.dimensions)

def text : List Char := f.header ++ itemsText f.last (f.entries.map Entry.item)

/-- The entries, and where they are. -/
def records : List Record := TextChunks.records f.header.length (f.entries.map Entry.item)

/-- The row and column of each entry, with the offset of its text. -/
def edges : List Found := f.records.map Record.found

/-- What the header says. -/
def info : HeaderInfo where
  header_end_offset := ((f.header.length : ℤ) + 1).bmod (2 ^ 32)
  field_double := f.field = .real ∨ f.field = .double
  field_default_value := f.field = .pattern
  field_bidir := f.symmetry ≠ .general

/-- The end of the header, if it fits in an `int`. -/
theorem info_header_end_offset (h : f.header.length + 1 < 2 ^ 31) :
    f.info.header_end_offset = f.header.length + 1 := by
  unfold info
  dsimp only
  generalize f.header.length = n at h ⊢
  apply Int.bmod_eq_of_le
  · norm_num
    omega
  · norm_num
    omega

end MatrixMarketFile

/-! ### The header is read -/

namespace MatrixMarket

variable {sep rest word : List Char}

theorem Separates.isSpace (h : Separates sep) : ∀ c ∈ sep, isSpace c = true := by
  intro c hc
  rcases h.2 c hc with rfl | rfl <;> rfl

theorem Separates.blank (h : Separates sep) (rest : List Char) : Blank (sep ++ rest) := by
  obtain ⟨c, t, rfl⟩ := exists_cons_of_ne_nil h.1
  intro d hd
  cases hd
  exact h.isSpace c mem_cons_self

theorem Separates.append_ne_nil (h : Separates sep) (rest : List Char) : sep ++ rest ≠ [] := by
  simp [h.1]

theorem Separates.not_newline (h : Separates sep) : '\n' ∉ sep := by
  intro hmem
  rcases h.2 _ hmem with h | h <;> cases h

theorem not_isSpace_of_all {word : List Char} (h : word.all (fun c => !isSpace c) = true) :
    ∀ c ∈ word, isSpace c = false := by
  intro c hc
  exact Bool.not_eq_true' _ ▸ all_eq_true.mp h c hc

theorem Field.name_spec (field : Field) : field.name ≠ [] ∧ ∀ c ∈ field.name, isSpace c = false := by
  have hall : field.name ≠ [] ∧ field.name.all (fun c => !isSpace c) = true := by
    cases field <;> decide
  exact ⟨hall.1, not_isSpace_of_all hall.2⟩

theorem Symmetry.name_spec (symmetry : Symmetry) :
    symmetry.name ≠ [] ∧ ∀ c ∈ symmetry.name, isSpace c = false := by
  have hall : symmetry.name ≠ [] ∧ symmetry.name.all (fun c => !isSpace c) = true := by
    cases symmetry <;> decide
  exact ⟨hall.1, not_isSpace_of_all hall.2⟩

theorem read_field_name (field : Field) (info : HeaderInfo) (h : info.field_default_value = false) :
    read_field field.name info = some { info with
      field_double := field = .real ∨ field = .double, field_default_value := field = .pattern } := by
  have hreal : ∀ word ∈ ["integer", "pattern"],
      ¬(word.toList = "real".toList ∨ word.toList = "double".toList) := by decide +kernel
  have hpattern : ¬"pattern".toList = "integer".toList := by decide +kernel
  obtain ⟨e, d, v, b⟩ := info
  obtain rfl : v = false := h
  cases field with
  | real => exact if_pos (.inl rfl)
  | double => exact if_pos (.inr rfl)
  | integer => exact (if_neg (hreal "integer" (by decide))).trans (if_pos rfl)
  | pattern =>
    exact (if_neg (hreal "pattern" (by decide))).trans ((if_neg hpattern).trans (if_pos rfl))

theorem read_symmetry_name (symmetry : Symmetry) (info : HeaderInfo) :
    read_symmetry symmetry.name info = some { info with field_bidir := symmetry ≠ .general } := by
  cases symmetry with
  | general =>
    have hnot : ¬("general".toList = "symmetric".toList ∨ "general".toList = "hermitian".toList ∨
        "general".toList = "skew-symmetric".toList) := by simp
    exact (if_neg hnot).trans (if_pos rfl)
  | symmetric => exact if_pos (.inl rfl)
  | hermitian => exact if_pos (.inr (.inl rfl))
  | skew_symmetric => exact if_pos (.inr (.inr rfl))

theorem readWord_separated {word word' blanks sep rest : List Char} (hword : word ≠ [])
    (hspace : ∀ c ∈ word, DecimalText.isSpace c = false)
    (hblanks : ∀ c ∈ blanks, DecimalText.isSpace c = true) (hsep : Separates sep) :
    readWord word' ⟨blanks ++ (word ++ (sep ++ rest)), true⟩ = (word, ⟨sep ++ rest, true⟩) := by
  rw [readWord_eq hword hspace hblanks (hsep.blank rest), decide_eq_true (hsep.append_ne_nil rest)]

theorem read_expected_eq {word tmp blanks sep rest : List Char} (hword : word ≠ [])
    (hspace : ∀ c ∈ word, DecimalText.isSpace c = false)
    (hblanks : ∀ c ∈ blanks, DecimalText.isSpace c = true) (hsep : Separates sep) :
    read_expected word tmp ⟨blanks ++ (word ++ (sep ++ rest)), true⟩ =
      some (word, ⟨sep ++ rest, true⟩) := by
  rw [read_expected, readWord_separated hword hspace hblanks hsep]
  exact if_pos rfl

theorem read_first_line_eq {field : Field} {symmetry : Symmetry} {sep : ℕ → List Char}
    {tail : List Char} (hsep : ∀ i, Separates (sep i)) (htail : ∀ c ∈ tail, c = ' ' ∨ c = '\t') :
    read_first_line (firstLine field symmetry sep tail) {} = some
      { field_double := field = .real ∨ field = .double, field_default_value := field = .pattern,
        field_bidir := symmetry ≠ .general } := by
  have htail' : Blank tail := by
    intro c hc
    rcases htail c (mem_of_head? hc) with rfl | rfl <;> rfl
  have hname := field.name_spec
  have hspaces : ∀ word ∈ ["%%MatrixMarket", "matrix", "coordinate"],
      word.toList ≠ [] ∧ ∀ c ∈ word.toList, isSpace c = false := by
    have hall : ∀ word ∈ ["%%MatrixMarket", "matrix", "coordinate"],
        word.toList ≠ [] ∧ word.toList.all (fun c => !isSpace c) = true := by decide +kernel
    exact fun word hword => ⟨(hall word hword).1, not_isSpace_of_all (hall word hword).2⟩
  have hbanner := hspaces "%%MatrixMarket" (by decide)
  have hmatrix := hspaces "matrix" (by decide)
  have hcoordinate := hspaces "coordinate" (by decide)
  have hsymmetry : ∀ word', readWord word' ⟨sep 3 ++ (symmetry.name ++ tail), true⟩ =
      (symmetry.name, ⟨tail, tail ≠ []⟩) := fun word' =>
    readWord_eq symmetry.name_spec.1 symmetry.name_spec.2 (hsep 3).isSpace htail'
  have hfield : ∀ word' rest, readWord word' ⟨sep 2 ++ (field.name ++ (sep 3 ++ rest)), true⟩ =
      (field.name, ⟨sep 3 ++ rest, true⟩) := fun word' rest =>
    readWord_separated hname.1 hname.2 (hsep 2).isSpace (hsep 3)
  have hfirst := fun rest =>
    @read_expected_eq "%%MatrixMarket".toList [] [] (sep 0) rest hbanner.1 hbanner.2 nofun (hsep 0)
  have hsecond := fun rest => @read_expected_eq "matrix".toList "%%MatrixMarket".toList (sep 0) (sep 1)
    rest hmatrix.1 hmatrix.2 (hsep 0).isSpace (hsep 1)
  have hthird := fun rest => @read_expected_eq "coordinate".toList "matrix".toList (sep 1) (sep 2)
    rest hcoordinate.1 hcoordinate.2 (hsep 1).isSpace (hsep 2)
  simp only [nil_append] at hfirst
  unfold read_first_line firstLine
  rw [hfirst, bind_some, hsecond, bind_some, hthird, bind_some]
  rw [hfield]
  dsimp only
  rw [read_field_name field {} rfl, bind_some, hsymmetry, read_symmetry_name]

theorem read_comments_eq {comments : List (List Char)} (hcomments : ∀ c ∈ comments, '\n' ∉ c)
    {dimensions rest : List Char} (hdim : '\n' ∉ dimensions ∧ dimensions.head? ≠ some '%')
    {fuel line : ℕ} (hline : line ≠ 0) (info : HeaderInfo) (s : List Char)
    (hfuel : comments.length < fuel) :
    read_comments fuel line info s
        ⟨(comments.flatMap fun c => '%' :: c ++ ['\n']) ++ (dimensions ++ '\n' :: rest), true⟩ =
      some (info, ⟨rest, true⟩) := by
  induction comments generalizing fuel line s with
  | nil =>
    obtain ⟨fuel, rfl⟩ : ∃ f, fuel = f + 1 := ⟨fuel - 1, by omega⟩
    rw [flatMap_nil, nil_append, read_comments, getline_eq hdim.1]
    exact if_neg hdim.2
  | cons c comments ih =>
    obtain ⟨fuel, rfl⟩ : ∃ f, fuel = f + 1 := ⟨fuel - 1, by omega⟩
    have hc : '\n' ∉ '%' :: c := by
      intro hmem
      rcases mem_cons.mp hmem with heq | hmem
      · exact absurd heq (by decide)
      · exact hcomments c mem_cons_self hmem
    have htext : ((c :: comments).flatMap fun c => '%' :: c ++ ['\n']) ++ (dimensions ++ '\n' :: rest) =
        ('%' :: c) ++ '\n' :: ((comments.flatMap fun c => '%' :: c ++ ['\n']) ++
          (dimensions ++ '\n' :: rest)) := by
      simp
    rw [htext, read_comments, getline_eq hc]
    simp only [head?_cons, if_true, if_neg hline]
    exact ih (fun d hd => hcomments d (mem_cons_of_mem _ hd)) (Nat.succ_ne_zero _) _
      (by simpa using hfuel)

theorem firstLine_spec (field : Field) (symmetry : Symmetry) {sep : ℕ → List Char}
    {tail : List Char} (hsep : ∀ i, Separates (sep i)) (htail : ∀ c ∈ tail, c = ' ' ∨ c = '\t') :
    '\n' ∉ firstLine field symmetry sep tail ∧
      (firstLine field symmetry sep tail).head? = some '%' := by
  have hwords : ∀ word ∈ ["%%MatrixMarket", "matrix", "coordinate"], '\n' ∉ word.toList := by
    decide +kernel
  have hfield : '\n' ∉ field.name := by cases field <;> decide +kernel
  have hsymmetry : '\n' ∉ symmetry.name := by cases symmetry <;> decide +kernel
  have htail' : '\n' ∉ tail := by
    intro hmem
    rcases htail _ hmem with h | h <;> cases h
  constructor
  · unfold firstLine
    simp only [mem_append, not_or]
    exact ⟨hwords _ (by decide), (hsep 0).not_newline, hwords _ (by decide), (hsep 1).not_newline,
      hwords _ (by decide), (hsep 2).not_newline, hfield, (hsep 3).not_newline, hsymmetry, htail'⟩
  · have hhead : "%%MatrixMarket".toList.head? = some '%' := by decide +kernel
    unfold firstLine
    rw [head?_append, hhead]
    rfl

end MatrixMarket

namespace MatrixMarketFile

open MatrixMarket

variable {too_large : List Char → Bool} (f : MatrixMarketFile too_large)

theorem exists_entriesText : ∃ t, itemsText f.last (f.entries.map Entry.item) = '\n' :: t := by
  obtain ⟨t, ht⟩ := f.end_of_header
  cases hentries : f.entries with
  | nil =>
    rw [hentries] at ht
    exact ⟨t, ht⟩
  | cons e l =>
    rw [hentries] at ht
    have hgap : e.gap = '\n' :: t := ht
    exact ⟨t ++ (e.body ++ itemsText f.last (l.map Entry.item)), by
      simp [itemsText, Entry.item, hgap]⟩

theorem read_header_eq : read_header f.text = some f.info := by
  obtain ⟨t, ht⟩ := f.exists_entriesText
  obtain ⟨hline, hhead⟩ := firstLine_spec f.field f.symmetry f.sep_ok f.tail_ok
  have htext : f.text = firstLine f.field f.symmetry f.sep f.tail ++
      '\n' :: ((f.comments.flatMap fun c => '%' :: c ++ ['\n']) ++ (f.dimensions ++ '\n' :: t)) := by
    rw [text, header, ht]
    simp only [append_assoc, cons_append]
  have hfuel : f.comments.length < f.text.length := by
    have hlen : f.comments.length ≤ (f.comments.flatMap fun c => '%' :: c ++ ['\n']).length := by
      induction f.comments with
      | nil => exact Nat.zero_le _
      | cons c l ih =>
        simp only [flatMap_cons, length_append, length_cons] at ih ⊢
        omega
    have := congrArg length htext
    simp only [length_append, length_cons] at this
    omega
  have hcomments := @read_comments_eq f.comments f.comments_ok f.dimensions t f.dimensions_ok
    f.text.length 1 one_ne_zero
    { field_double := f.field = .real ∨ f.field = .double, field_default_value := f.field = .pattern,
      field_bidir := f.symmetry ≠ .general } (firstLine f.field f.symmetry f.sep f.tail) hfuel
  have hread : read_comments (f.text.length + 1) 0 {} [] ⟨f.text, true⟩ = some
      ({ field_double := f.field = .real ∨ f.field = .double, field_default_value := f.field = .pattern,
         field_bidir := f.symmetry ≠ .general }, ⟨t, true⟩) := by
    rw [read_comments]
    generalize f.text.length = n at hcomments ⊢
    rw [htext, getline_eq hline]
    dsimp only
    rw [if_pos hhead, if_pos rfl, read_first_line_eq f.sep_ok f.tail_ok, bind_some]
    exact hcomments
  have htell : InStream.tellg f.text.length ⟨t, true⟩ = (f.header.length : ℤ) + 1 := by
    have hlen : f.text.length = f.header.length + (t.length + 1) := by
      rw [text, ht, length_append, length_cons]
    rw [InStream.tellg, if_pos rfl, hlen]
    push_cast
    omega
  rw [read_header, hread, map_some, htell]
  rfl

end MatrixMarketFile

end Grappa
