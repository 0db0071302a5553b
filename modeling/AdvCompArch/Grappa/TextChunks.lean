import AdvCompArch.Grappa.EdgeRedistribution
import AdvCompArch.Lib.InputStream
import AdvCompArch.Lib.Relay

/-! # Reading a text in chunks

    `load_tsv` and `load_mm` divide the bytes of a text among the cores.  A core goes to the
    first line after the start of its chunk and reads edges from there on, until it is past
    the end of its chunk.  The two differ in what they read behind an edge.

    The texts here are sequences of edges, with gaps between them. -/

namespace Grappa

open List Relay

open TupleGraph (Edge)
open DecimalText InStream

namespace TextChunks

/-- An edge that is read, with the offset of its text in the file. -/
abbrev Found := ℤ × Edge

/-! ### The chunks -/

/-- Core `0` takes what is left after the division. -/
def my_bytes_each_core {cores : ℕ} (file_size : ℕ) (c : Fin cores) : ℕ :=
  let bytes_each_core := file_size / cores
  if c.val = 0 then bytes_each_core + (file_size - bytes_each_core * cores) else bytes_each_core

/-- `start_offset` and `end_offset` of the cores, when they fetch and add in this order. -/
def chunks {cores : ℕ} (file_size : ℕ) : ℤ → List (Fin cores) → List (ℤ × ℤ)
  | _, [] => []
  | local_offset, c :: order =>
    let end_offset := local_offset + my_bytes_each_core file_size c
    (local_offset, end_offset) :: chunks file_size end_offset order

/-! ### The loop -/

variable (data : InStream → InStream)

/-- An edge, and what `data` reads behind it; `none` if there is no number. -/
def read_entry (infile : InStream) : Option (Edge × InStream) :=
  let v0 := infile.readInt (-1)
  if v0.2.good then
    let v1 := v0.2.readInt (-1)
    some (⟨v0.1, v1.1⟩, data v1.2)
  else none

/-- "read up to one entry past the `end_offset`"; `none` if the fuel does not suffice. -/
def read_loop (size : ℕ) (end_offset : ℤ) : ℕ → ℤ → InStream → Option (List Found)
  | 0, _, _ => none
  | fuel + 1, start_offset, infile =>
    if infile.good = true ∧ start_offset < end_offset then
      if infile.rest.head? = some '#' then
        read_loop size end_offset fuel start_offset (infile.getline []).2
      else
        match read_entry data infile with
        | none => some []
        | some (e, infile') =>
          (read_loop size end_offset fuel (infile'.tellg size) infile').map
            (((size : ℤ) - (infile.rest.dropWhile isSpace).length, e) :: ·)
    else some []

/-- What one core reads. -/
def read_chunk (text : List Char) (start_offset end_offset : ℤ) : Option (List Found) :=
  let infile := seekg text start_offset
  -- "move past next newline so we start parsing from a record boundary"
  let infile := if 0 < start_offset then (infile.getline []).2 else infile
  read_loop data text.length end_offset (text.length + 1) (infile.tellg text.length) infile

/-- What all cores read. -/
def read_chunks (text : List Char) : List (ℤ × ℤ) → Option (List Found)
  | [] => some []
  | c :: cs =>
    (read_chunk data text c.1 c.2).bind fun l => (read_chunks text cs).map (l ++ ·)

/-! ### Texts -/

/-- An edge in a text, and what stands between it and the edge before. -/
structure Item where
  gap : List Char
  /-- The gap has a comment. -/
  blocked : Bool
  body : List Char
  edge : Edge

/-- A text of items, and what stands behind the last. -/
def itemsText (last : List Char) : List Item → List Char
  | [] => last
  | i :: l => i.gap ++ (i.body ++ itemsText last l)

/-- An item, and where it is in the file. -/
structure Record where
  offset : ℤ
  reach : ℤ
  blocked : Bool
  edge : Edge
  deriving DecidableEq

def records : ℤ → List Item → List Record
  | _, [] => []
  | pos, i :: l =>
    ⟨pos + i.gap.length, pos + i.gap.length + i.body.length, i.blocked, i.edge⟩ ::
      records (pos + i.gap.length + i.body.length) l

def layout : Relay.Layout Record := ⟨Record.offset, Record.reach, Record.blocked⟩

/-- A record as it is read. -/
def Record.found (r : Record) : Found := (r.offset, r.edge)

/-- Comment lines, and then blanks. -/
inductive Comments : List Char → Prop
  | blanks {ws : List Char} (hws : ∀ c ∈ ws, isSpace c = true) : Comments ws
  | comment {c h : List Char} (hc : '\n' ∉ c) (hh : Comments h) : Comments ('#' :: c ++ '\n' :: h)

/-- What may stand between two edges. -/
structure IsGap (gap : List Char) (blocked : Bool) : Prop where
  blanks : blocked = false → ∀ c ∈ gap, isSpace c = true
  comment : blocked = true → ∃ t, gap.dropWhile isSpace = '#' :: t
  lines : ∀ front h, gap = front ++ '\n' :: h → Comments h

/-- The loop reads this edge from this text. -/
structure Reads (body : List Char) (edge : Edge) : Prop where
  head : ∃ c t, body = c :: t ∧ isSpace c = false ∧ c ≠ '#'
  no_newline : '\n' ∉ body
  read : ∀ blanks rest, (∀ c ∈ blanks, isSpace c = true) → Blank rest →
    read_entry data ⟨blanks ++ (body ++ rest), true⟩ = some (edge, ⟨rest, rest ≠ []⟩)

/-- A text that the loop can read, from the end of its header on. -/
structure RecordText where
  header : List Char
  items : List Item
  last : List Char
  last_blocked : Bool
  gaps : ∀ i ∈ items, IsGap i.gap i.blocked
  last_gap : IsGap last last_blocked
  bodies : ∀ i ∈ items, Reads data i.body i.edge
  /-- Behind an edge there is a blank, or the end of the text. -/
  blank_gaps : ∀ i ∈ items.tail, ∃ c t, i.gap = c :: t ∧ isSpace c = true
  blank_last : items ≠ [] → Blank last
  /-- A text without a header starts with a line. -/
  starts_line : header = [] → Comments ((items.head?.map Item.gap).getD last)

/-! ### The loop in a text -/

variable {data} {size fuel : ℕ} {end_offset pos : ℤ} {items : List Item} {last : List Char}
  {blocked : Bool}

theorem read_entry_blocked {rest text : List Char} (h : rest.dropWhile isSpace = '#' :: text) :
    read_entry data ⟨rest, true⟩ = none := by
  have hbad : (readInt (-1) ⟨rest, true⟩).2.good = false :=
    readInt_not_number h (by decide) (by decide)
  rw [read_entry, hbad]
  rfl

theorem read_entry_blanks {rest : List Char} (h : ∀ c ∈ rest, isSpace c = true) :
    read_entry data ⟨rest, true⟩ = none := by
  rw [read_entry, readInt_blanks h]
  rfl

theorem IsGap.read_entry_last (hlast : IsGap last blocked) :
    read_entry data ⟨last, true⟩ = none := by
  cases hb : blocked with
  | false => exact read_entry_blanks (hlast.blanks hb)
  | true =>
    obtain ⟨t, ht⟩ := hlast.comment hb
    exact read_entry_blocked ht

theorem read_entry_numerals (v0 v1 : Numeral) (h0 : InRange v0.value) (h1 : InRange v1.value)
    {blanks sep rest : List Char} (hblanks : ∀ c ∈ blanks, isSpace c = true)
    (hsep : ∀ c ∈ sep, isSpace c = true) (hne : sep ≠ []) (hrest : Blank rest) :
    read_entry data ⟨blanks ++ (v0.text ++ (sep ++ (v1.text ++ rest))), true⟩ =
      some (⟨v0.value, v1.value⟩, data ⟨rest, rest ≠ []⟩) := by
  have hsep' : Blank (sep ++ (v1.text ++ rest)) := by
    obtain ⟨c, t, rfl⟩ := exists_cons_of_ne_nil hne
    intro d hd
    cases hd
    exact hsep c mem_cons_self
  have hfirst := readInt_numeral (v := -1) v0 h0 hblanks hsep'
  have hgood : decide (sep ++ (v1.text ++ rest) ≠ []) = true := decide_eq_true (by simp [hne])
  rw [hgood] at hfirst
  rw [read_entry, hfirst]
  simp only [if_true]
  rw [readInt_numeral v1 h1 hsep hrest]

theorem head_ne_comment {text : List Char} (h : Blank text) : text.head? ≠ some '#' := by
  intro hhead
  have := h '#' hhead
  exact absurd this (by decide)

/-- The gaps and bodies of the items that follow an edge. -/
structure Follows (data : InStream → InStream) (items : List Item) (last : List Char) : Prop where
  gaps : ∀ i ∈ items, IsGap i.gap i.blocked
  bodies : ∀ i ∈ items, Reads data i.body i.edge
  blank_gaps : ∀ i ∈ items, ∃ c t, i.gap = c :: t ∧ isSpace c = true
  last_gap : ∃ blocked, IsGap last blocked
  blank_last : Blank last

theorem Follows.tail {i : Item} (h : Follows data (i :: items) last) : Follows data items last := by
  constructor
  case gaps => exact fun j hj => h.gaps j (mem_cons_of_mem _ hj)
  case bodies => exact fun j hj => h.bodies j (mem_cons_of_mem _ hj)
  case blank_gaps => exact fun j hj => h.blank_gaps j (mem_cons_of_mem _ hj)
  case last_gap => exact h.last_gap
  case blank_last => exact h.blank_last

theorem Follows.blank (h : Follows data items last) : Blank (itemsText last items) := by
  cases items with
  | nil => exact h.blank_last
  | cons i items =>
    obtain ⟨c, t, hgap, hc⟩ := h.blank_gaps i mem_cons_self
    intro d hd
    rw [itemsText, hgap] at hd
    cases hd
    exact hc

theorem dropWhile_body {blanks rest : List Char} {i : Item} (hbody : Reads data i.body i.edge)
    (hblanks : ∀ c ∈ blanks, isSpace c = true) :
    (blanks ++ (i.body ++ rest)).dropWhile isSpace = i.body ++ rest := by
  obtain ⟨c, t, hhead, hc, -⟩ := hbody.head
  rw [hhead, cons_append, dropWhile_blanks hblanks hc]

/-- **The loop behind an edge** reads the edges that a reader goes on to. -/
theorem read_loop_follow {p : Record} (h : Follows data items last) (c : Relay.Reader)
    (hsize : (size : ℤ) = p.reach + (itemsText last items).length)
    (hfuel : (itemsText last items).length < fuel) {infile : InStream}
    (hrest : infile.rest = itemsText last items)
    (hgood : infile.good = decide (itemsText last items ≠ [])) :
    read_loop data size c.stop fuel (infile.tellg size) infile =
      some ((Relay.follow layout c p (records p.reach items)).map Record.found) := by
  obtain ⟨rest, good⟩ := infile
  obtain rfl : rest = itemsText last items := hrest
  induction items generalizing p fuel good with
  | nil =>
    obtain ⟨fuel, rfl⟩ : ∃ f, fuel = f + 1 := ⟨fuel - 1, by omega⟩
    obtain ⟨b, hgap⟩ := h.last_gap
    simp only [itemsText, records, follow, map_nil]
    rw [read_loop]
    split
    · rename_i hgo
      obtain rfl : good = true := hgo.1
      rw [if_neg (head_ne_comment h.blank_last), hgap.read_entry_last]
    · rfl
  | cons i items ih =>
    obtain ⟨fuel, rfl⟩ : ∃ f, fuel = f + 1 := ⟨fuel - 1, by omega⟩
    obtain ⟨a, t, hgap, ha⟩ := h.blank_gaps i mem_cons_self
    have hbody := h.bodies i mem_cons_self
    have hne : itemsText last (i :: items) ≠ [] := by simp [itemsText, hgap]
    obtain rfl : good = true := hgood.trans (decide_eq_true hne)
    have htell : InStream.tellg size ⟨itemsText last (i :: items), true⟩ = p.reach := by
      rw [InStream.tellg, if_pos rfl, hsize, add_sub_cancel_right]
    rw [htell, read_loop, records, follow]
    by_cases hgo : p.reach < c.stop
    · rw [if_pos ⟨rfl, hgo⟩, if_neg (head_ne_comment h.blank)]
      cases hb : i.blocked with
      | true =>
        -- a comment stops the loop
        obtain ⟨u, hu⟩ := (h.gaps i mem_cons_self).comment hb
        have hdrop : (itemsText last (i :: items)).dropWhile isSpace =
            '#' :: (u ++ (i.body ++ itemsText last items)) := by
          rw [itemsText, dropWhile_append, hu]
          rfl
        rw [read_entry_blocked hdrop, if_neg (by simp [layout])]
        rfl
      | false =>
        have hblanks := (h.gaps i mem_cons_self).blanks hb
        have hread := hbody.read i.gap (itemsText last items) hblanks h.tail.blank
        have hdrop : (itemsText last (i :: items)).dropWhile isSpace =
            i.body ++ itemsText last items := dropWhile_body hbody hblanks
        have hlen : (itemsText last (i :: items)).length =
            i.gap.length + (i.body.length + (itemsText last items).length) := by
          simp [itemsText]
        have hoffset : (size : ℤ) - (i.body ++ itemsText last items).length =
            p.reach + i.gap.length := by
          rw [hsize, hlen, length_append]
          push_cast
          omega
        have hpos : 0 < i.gap.length := by simp [hgap]
        have hnext := @ih fuel ⟨p.reach + i.gap.length, p.reach + i.gap.length + i.body.length,
          false, i.edge⟩ h.tail (by rw [hsize, hlen]; push_cast; omega) (by omega)
          (decide (itemsText last items ≠ [])) rfl
        rw [if_pos ⟨hgo, rfl⟩, hdrop, hoffset]
        simp only [itemsText] at hread ⊢
        rw [hread]
        dsimp only
        rw [hnext]
        rfl
    · rw [if_neg fun h => hgo h.2, if_neg fun h => hgo h.1]
      rfl

/-- **The loop from a line on** reads the next edge, and goes on behind it. -/
theorem read_loop_entry {h body rest : List Char} (hh : Comments h) {e : Edge} {infile' : InStream}
    (hhead : ∃ c t, body = c :: t ∧ isSpace c = false ∧ c ≠ '#')
    (hread : ∀ blanks, (∀ c ∈ blanks, isSpace c = true) →
      read_entry data ⟨blanks ++ (body ++ rest), true⟩ = some (e, infile'))
    {start_offset : ℤ} (hstart : start_offset < end_offset)
    (hsize : (size : ℤ) = pos + (body ++ rest).length)
    (hfuel : (h ++ (body ++ rest)).length < fuel) :
    ∃ fuel', rest.length < fuel' ∧
      read_loop data size end_offset fuel start_offset ⟨h ++ (body ++ rest), true⟩ =
        (read_loop data size end_offset fuel' (infile'.tellg size) infile').map ((pos, e) :: ·) := by
  obtain ⟨a, t, hbody, hspace, ha⟩ := hhead
  induction hh generalizing fuel with
  | @blanks ws hws =>
    obtain ⟨fuel, rfl⟩ : ∃ f, fuel = f + 1 := ⟨fuel - 1, by omega⟩
    have hdrop : (ws ++ (body ++ rest)).dropWhile isSpace = body ++ rest := by
      rw [hbody, cons_append, dropWhile_blanks hws hspace]
    have hhead : (ws ++ (body ++ rest)).head? ≠ some '#' := by
      cases ws with
      | nil => simpa [hbody] using ha
      | cons w ws =>
        intro hw
        cases hw
        exact absurd (hws '#' mem_cons_self) (by decide)
    have hoffset : (size : ℤ) - (body ++ rest).length = pos := by omega
    have hpos : 0 < body.length := by simp [hbody]
    simp only [length_append] at hfuel
    refine ⟨fuel, by omega, ?_⟩
    rw [read_loop, if_pos ⟨rfl, hstart⟩, if_neg hhead, hread ws hws]
    dsimp only
    rw [hdrop, hoffset]
  | @comment u h hu hh ih =>
    obtain ⟨fuel, rfl⟩ : ∃ f, fuel = f + 1 := ⟨fuel - 1, by omega⟩
    have hline : ('#' :: u ++ '\n' :: h) ++ (body ++ rest) =
        ('#' :: u) ++ '\n' :: (h ++ (body ++ rest)) := by simp
    rw [hline] at hfuel ⊢
    have hhead : (('#' :: u) ++ '\n' :: (h ++ (body ++ rest))).head? = some '#' := rfl
    rw [read_loop, if_pos ⟨rfl, hstart⟩, if_pos hhead, InStream.getline_eq]
    · apply ih
      simp only [length_append, length_cons] at hfuel ⊢
      omega
    · intro hmem
      rcases mem_cons.mp hmem with heq | hmem
      · exact absurd heq (by decide)
      · exact hu hmem

theorem read_loop_fresh {h : List Char} (hh : Comments h) {i : Item}
    (hbody : Reads data i.body i.edge) (hfollows : Follows data items last) (c : Relay.Reader)
    {start_offset : ℤ} (hstart : start_offset < c.stop)
    (hsize : (size : ℤ) = pos + (i.body ++ itemsText last items).length)
    (hfuel : (h ++ (i.body ++ itemsText last items)).length < fuel) :
    read_loop data size c.stop fuel start_offset ⟨h ++ (i.body ++ itemsText last items), true⟩ =
      some ((pos, i.edge) :: (Relay.follow layout c ⟨pos, pos + i.body.length, i.blocked, i.edge⟩
        (records (pos + i.body.length) items)).map Record.found) := by
  obtain ⟨fuel', hfuel', hloop⟩ := read_loop_entry hh hbody.head
    (fun blanks hblanks => hbody.read blanks _ hblanks hfollows.blank) hstart hsize hfuel
  rw [length_append] at hsize
  have hnext := @read_loop_follow data size fuel' items last
    ⟨pos, pos + i.body.length, i.blocked, i.edge⟩ hfollows c (by rw [hsize]; push_cast; omega)
    hfuel' ⟨itemsText last items, itemsText last items ≠ []⟩ rfl rfl
  rw [hloop, hnext]
  rfl

theorem read_loop_last {h : List Char} (hh : Comments h) {start_offset : ℤ}
    (hfuel : h.length < fuel) :
    read_loop data size end_offset fuel start_offset ⟨h, true⟩ = some [] := by
  induction hh generalizing fuel with
  | @blanks ws hws =>
    obtain ⟨fuel, rfl⟩ : ∃ f, fuel = f + 1 := ⟨fuel - 1, by omega⟩
    rw [read_loop]
    split
    · rw [if_neg, read_entry_blanks hws]
      intro hhead
      exact absurd (hws '#' (mem_of_head? hhead)) (by decide)
    · rfl
  | @comment u h hu hh ih =>
    obtain ⟨fuel, rfl⟩ : ∃ f, fuel = f + 1 := ⟨fuel - 1, by omega⟩
    rw [read_loop]
    split
    · have hline : '#' :: u ++ '\n' :: h = ('#' :: u) ++ '\n' :: h := rfl
      have hhead : (('#' :: u) ++ '\n' :: h).head? = some '#' := rfl
      rw [hline, if_pos hhead, InStream.getline_eq]
      · apply ih
        simp only [length_append, length_cons] at hfuel ⊢
        omega
      · intro hmem
        rcases mem_cons.mp hmem with heq | hmem
        · exact absurd heq (by decide)
        · exact hu hmem
    · rfl

theorem split_newline {a b front rest : List Char} (h : a ++ b = front ++ '\n' :: rest) :
    (∃ t, a = front ++ '\n' :: t ∧ rest = t ++ b) ∨
      ∃ t, front = a ++ t ∧ b = t ++ '\n' :: rest := by
  obtain ⟨t, hfront, hb⟩ | ⟨t, ha, hrest⟩ := append_eq_append_iff.mp h
  · exact .inr ⟨t, hfront, hb⟩
  · cases t with
    | nil => exact .inr ⟨[], by simpa using ha.symm, by simpa using hrest.symm⟩
    | cons c t =>
      obtain ⟨hc, htail⟩ := cons.inj hrest
      exact .inl ⟨t, hc ▸ ha, htail⟩

/-- What a text is from the start of a line on, and its records. -/
inductive Resumes (data : InStream → InStream) (size : ℕ) (last : List Char) (items : List Item) :
    List Record → List Char → Prop
  | last {h : List Char} (hh : Comments h) : Resumes data size last items [] h
  | item {h : List Char} {i : Item} {l : List Item} {pos : ℤ} (hh : Comments h)
      (hbody : Reads data i.body i.edge) (hfollows : Follows data l last)
      (hsuffix : (i :: l) <:+ items) (hsize : (size : ℤ) = pos + (i.body ++ itemsText last l).length) :
      Resumes data size last items
        (⟨pos, pos + i.body.length, i.blocked, i.edge⟩ :: records (pos + i.body.length) l)
        (h ++ (i.body ++ itemsText last l))

theorem Resumes.mono {items' : List Item} {recs : List Record} {rest : List Char}
    (h : Resumes data size last items recs rest) (hsuffix : items <:+ items') :
    Resumes data size last items' recs rest := by
  cases h with
  | last hh => exact .last hh
  | item hh hbody hfollows hs hsize => exact .item hh hbody hfollows (hs.trans hsuffix) hsize

/-- **From the start of a line on** a text has the records behind it. -/
theorem resumes_of_line (hlast : ∃ b, IsGap last b)
    (hitems : ∀ i l, items = i :: l →
      IsGap i.gap i.blocked ∧ Reads data i.body i.edge ∧ Follows data l last)
    {front rest : List Char} (htext : itemsText last items = front ++ '\n' :: rest) {first : ℤ}
    (hfirst : first = pos + front.length + 1)
    (hsize : (size : ℤ) = pos + (itemsText last items).length) :
    Resumes data size last items
      ((records pos items).dropWhile fun r => decide (r.offset < first)) rest := by
  induction items generalizing pos front with
  | nil =>
    obtain ⟨b, hgap⟩ := hlast
    exact .last (hgap.lines front rest htext)
  | cons i l ih =>
    obtain ⟨hgap, hbody, hfollows⟩ := hitems i l rfl
    simp only [itemsText, length_append] at htext hsize
    push_cast at hsize
    obtain ⟨h, hgapeq, rfl⟩ | ⟨front', hfront, htext⟩ := split_newline htext
    · -- the line starts in the gap
      have hlen : i.gap.length = front.length + (h.length + 1) := by
        rw [hgapeq]
        simp
      have hoffset : ¬pos + i.gap.length < first := by omega
      have hdrop : (records pos (i :: l)).dropWhile (fun r => decide (r.offset < first)) =
          records pos (i :: l) := by
        rw [records, dropWhile_cons, if_neg (by simpa using hoffset)]
      rw [hdrop]
      apply Resumes.item (hgap.lines front h hgapeq) hbody hfollows (suffix_refl _)
      rw [length_append, hsize]
      push_cast
      omega
    · obtain ⟨h, hbodyeq, -⟩ | ⟨front'', hfront', htext⟩ := split_newline htext
      · -- a body is in one line
        refine absurd ?_ hbody.no_newline
        rw [hbodyeq]
        simp
      · -- the line starts behind the item
        have hlen : front.length = i.gap.length + (i.body.length + front''.length) := by
          rw [hfront, hfront']
          simp
        have hoffset : pos + i.gap.length < first := by omega
        have hdrop : (records pos (i :: l)).dropWhile (fun r => decide (r.offset < first)) =
            (records (pos + i.gap.length + i.body.length) l).dropWhile
              fun r => decide (r.offset < first) := by
          rw [records, dropWhile_cons, if_pos (by simpa using hoffset)]
        rw [hdrop]
        refine (ih ?_ htext ?_ ?_).mono (suffix_cons i l)
        · intro j l' hl
          rw [hl] at hfollows
          exact ⟨hfollows.gaps j mem_cons_self, hfollows.bodies j mem_cons_self,
            hfollows.tail⟩
        · omega
        · omega

theorem Resumes.read_loop_eq {recs : List Record} {rest : List Char}
    (h : Resumes data size last items recs rest) (c : Relay.Reader) {start_offset : ℤ}
    (hstart : start_offset < c.stop) (hfuel : rest.length < fuel) :
    read_loop data size c.stop fuel start_offset ⟨rest, true⟩ =
      some ((Relay.fresh layout c recs).map Record.found) := by
  cases h with
  | last hh => exact read_loop_last hh hfuel
  | item hh hbody hfollows _ hsize =>
    rw [read_loop_fresh hh hbody hfollows c hstart hsize hfuel]
    rfl

theorem exists_read_loop (hdata : ∀ s, (data s).rest.length ≤ s.rest.length) {start_offset : ℤ}
    {infile : InStream} (hfuel : infile.rest.length < fuel) :
    ∃ l, read_loop data size end_offset fuel start_offset infile = some l := by
  induction fuel generalizing start_offset infile with
  | zero => omega
  | succ fuel ih =>
    rw [read_loop]
    split
    · rename_i hgo
      split
      · -- a comment is skipped
        rename_i hhead
        apply ih
        obtain ⟨t, ht⟩ : ∃ t, infile.rest = '#' :: t := by
          cases hrest : infile.rest with
          | nil => simp [hrest] at hhead
          | cons c t =>
            rw [hrest] at hhead
            exact ⟨t, by rw [Option.some.inj hhead]⟩
        have hline : (infile.getline []).2 = afterLine t := by
          simp [InStream.getline, hgo.1, ht, afterLine]
        rw [hline]
        have hle := length_afterLine_le t
        rw [ht, length_cons] at hfuel
        omega
      · cases hentry : read_entry data infile with
        | none => exact ⟨[], rfl⟩
        | some r =>
          obtain ⟨e, infile'⟩ := r
          have hshort : infile'.rest.length < infile.rest.length := by
            rw [read_entry] at hentry
            obtain ⟨hgood, heq⟩ := Option.ite_none_right_eq_some.mp hentry
            obtain ⟨-, rfl⟩ := Prod.mk.inj (Option.some.inj heq)
            have h0 := (@length_readInt_le (-1) infile).2 hgood
            have h1 := (@length_readInt_le (-1) (infile.readInt (-1)).2).1
            have h2 := hdata ((infile.readInt (-1)).2.readInt (-1)).2
            omega
          obtain ⟨l, hl⟩ := @ih (infile'.tellg size) infile' (by omega)
          dsimp only
          rw [hl]
          exact ⟨_, rfl⟩
    · exact ⟨[], rfl⟩

/-! ### The chunk of a core -/

/-- Where a core starts to read: behind the end of the line that it finds at the start of its
    chunk. -/
def first_line (text : List Char) (start_offset : ℤ) : ℤ :=
  if 0 < start_offset then
    start_offset + ((text.drop start_offset.toNat).takeWhile (· ≠ '\n')).length + 1
  else 0

/-- The core as a reader of the edges of the text. -/
def reader (text : List Char) (c : ℤ × ℤ) : Relay.Reader := ⟨first_line text c.1, c.2⟩

namespace RecordText

variable (T : RecordText data)

def text : List Char := T.header ++ itemsText T.last T.items

def records : List Record := TextChunks.records T.header.length T.items

variable {T}

theorem follows (T : RecordText data) (i : Item) (l : List Item) (hl : T.items = i :: l) :
    IsGap i.gap i.blocked ∧ Reads data i.body i.edge ∧ Follows data l T.last := by
  have hmem : ∀ j ∈ l, j ∈ T.items := fun j hj => hl ▸ mem_cons_of_mem _ hj
  refine ⟨T.gaps i (by simp [hl]), T.bodies i (by simp [hl]), ?_⟩
  constructor
  case gaps => exact fun j hj => T.gaps j (hmem j hj)
  case bodies => exact fun j hj => T.bodies j (hmem j hj)
  case blank_gaps => exact fun j hj => T.blank_gaps j (by rw [hl]; exact hj)
  case last_gap => exact ⟨_, T.last_gap⟩
  case blank_last => exact T.blank_last (by simp [hl])

/-- **A core skips to the start of a line**, if there is one before the end of its chunk. -/
theorem read_chunk_cases (T : RecordText data) (data' : InStream → InStream) {c : ℤ × ℤ}
    (hlo : T.header.length ≤ c.1) (hhi : c.2 ≤ T.text.length) :
    (¬(reader T.text c).first < (reader T.text c).stop ∧
      read_chunk data' T.text c.1 c.2 = some []) ∨
    ((reader T.text c).first < (reader T.text c).stop ∧ ∃ rest,
      Resumes data T.text.length T.last T.items
        (T.records.dropWhile fun r => decide (r.offset < (reader T.text c).first)) rest ∧
      rest.length < T.text.length + 1 ∧
      read_chunk data' T.text c.1 c.2 = read_loop data' T.text.length (reader T.text c).stop
        (T.text.length + 1) (reader T.text c).first ⟨rest, true⟩) := by
  have hlen : T.text.length = T.header.length + (itemsText T.last T.items).length := by
    rw [text, length_append]
  have hstop : (reader T.text c).stop = c.2 := rfl
  rw [read_chunk]
  by_cases hpos : 0 < c.1
  · obtain ⟨k, hk⟩ : ∃ k : ℕ, c.1 = T.header.length + k := ⟨(c.1 - T.header.length).toNat, by omega⟩
    have hdrop : T.text.drop c.1.toNat = (itemsText T.last T.items).drop k := by
      rw [show c.1.toNat = T.header.length + k by omega, text, drop_length_add_append]
    have hseek : seekg T.text c.1 = ⟨(itemsText T.last T.items).drop k, true⟩ := by
      rw [seekg, if_neg (by omega), hdrop]
    have hfirst : (reader T.text c).first =
        c.1 + (((itemsText T.last T.items).drop k).takeWhile (· ≠ '\n')).length + 1 := by
      rw [reader, first_line, if_pos hpos, hdrop]
    simp only [if_pos hpos, hseek, InStream.getline, if_true]
    obtain ⟨hend, hall⟩ | ⟨rest, hend, hsplit⟩ := afterLine_cases ((itemsText T.last T.items).drop k)
    · -- the core is in the last line, and its stream is at the end
      left
      constructor
      · rw [hfirst, hstop, hall, length_drop]
        omega
      · rw [hend]
        rfl
    · generalize ((itemsText T.last T.items).drop k).takeWhile (· ≠ '\n') = w at hfirst hsplit
      have htext : itemsText T.last T.items = ((itemsText T.last T.items).take k ++ w) ++ '\n' :: rest := by
        rw [append_assoc, ← hsplit, take_append_drop]
      have hk' : k < (itemsText T.last T.items).length := by
        by_contra h
        rw [drop_eq_nil_of_le (by omega)] at hsplit
        simp at hsplit
      have hrest := congrArg length htext
      have htake : ((itemsText T.last T.items).take k).length = k := length_take_of_le hk'.le
      simp only [length_append, length_cons, htake] at hrest
      have htell : InStream.tellg T.text.length ⟨rest, true⟩ = (reader T.text c).first := by
        have hrest' : (InStream.mk rest true).rest.length = rest.length := rfl
        rw [InStream.tellg, if_pos rfl, hfirst, hrest']
        omega
      rw [hend, htell, ← hstop]
      by_cases hactive : (reader T.text c).first < (reader T.text c).stop
      · refine .inr ⟨hactive, rest, ?_, by omega, rfl⟩
        apply resumes_of_line ⟨_, T.last_gap⟩ T.follows htext
        · rw [hfirst, length_append, htake]
          push_cast
          omega
        · omega
      · refine .inl ⟨hactive, ?_⟩
        rw [read_loop, if_neg fun h => hactive h.2]
  · -- the core starts at the start of the file
    have hzero : c.1 = 0 := by omega
    have hheader : T.header = [] := eq_nil_of_length_eq_zero (by omega)
    have htext : T.text = itemsText T.last T.items := by rw [text, hheader, nil_append]
    have hfirst : (reader T.text c).first = 0 := by rw [reader, first_line, if_neg hpos]
    have hseek : seekg T.text c.1 = ⟨T.text, true⟩ := by
      rw [hzero, seekg]
      rfl
    have htell : InStream.tellg T.text.length ⟨T.text, true⟩ = 0 := by
      rw [InStream.tellg, if_pos rfl, sub_self]
    simp only [if_neg hpos, hseek, htell, hfirst, hstop]
    by_cases hactive : 0 < c.2
    · refine .inr ⟨hactive, T.text, ?_, Nat.lt_succ_self _, rfl⟩
      cases hitems : T.items with
      | nil =>
        have hcomments : Comments T.last := by simpa [hitems] using T.starts_line hheader
        have hrecords : T.records = [] := by rw [records, hitems, TextChunks.records]
        have hlast : T.text = T.last := by rw [htext, hitems, itemsText]
        rw [hrecords, hlast]
        exact .last hcomments
      | cons i l =>
        obtain ⟨hgap, hbody, hfollows⟩ := T.follows i l hitems
        have hcomments : Comments i.gap := by simpa [hitems] using T.starts_line hheader
        have hlast : T.text = i.gap ++ (i.body ++ itemsText T.last l) := by
          rw [htext, hitems, itemsText]
        have hrecords : T.records = ⟨i.gap.length, i.gap.length + i.body.length, i.blocked, i.edge⟩ ::
            TextChunks.records (i.gap.length + i.body.length) l := by
          rw [records, hitems, TextChunks.records, hheader, length_nil, Nat.cast_zero, zero_add]
        have hdrop : T.records.dropWhile (fun r => decide (r.offset < 0)) = T.records := by
          have hnot : ¬(i.gap.length : ℤ) < 0 := by omega
          rw [hrecords]
          exact dropWhile_cons_of_neg fun h => hnot (of_decide_eq_true h)
        have hsize : ((T.text.length : ℕ) : ℤ) =
            (i.gap.length : ℤ) + (i.body ++ itemsText T.last l).length := by
          rw [hlast, length_append]
          push_cast
          rfl
        rw [hdrop, hrecords]
        have hresumes : Resumes data T.text.length T.last (i :: l) _ _ :=
          .item hcomments hbody hfollows (suffix_refl _) hsize
        rwa [← hlast] at hresumes
    · refine .inl ⟨hactive, ?_⟩
      rw [read_loop, if_neg fun h => hactive h.2]

theorem read_chunk_eq (T : RecordText data) {c : ℤ × ℤ} (hlo : T.header.length ≤ c.1)
    (hhi : c.2 ≤ T.text.length) : read_chunk data T.text c.1 c.2 =
      some ((Relay.reads layout (reader T.text c) T.records).map Record.found) := by
  rw [reads]
  obtain ⟨hinactive, hread⟩ | ⟨hactive, rest, hresumes, hfuel, hread⟩ :=
    T.read_chunk_cases data hlo hhi
  · rw [hread, if_neg hinactive]
    rfl
  · rw [hread, if_pos hactive, hresumes.read_loop_eq _ hactive hfuel]
    rfl

theorem read_chunks_eq (T : RecordText data) {cs : List (ℤ × ℤ)}
    (hcs : ∀ c ∈ cs, (T.header.length : ℤ) ≤ c.1 ∧ c.2 ≤ T.text.length) :
    read_chunks data T.text cs = some ((cs.flatMap fun c =>
      Relay.reads layout (reader T.text c) T.records).map Record.found) := by
  induction cs with
  | nil => rfl
  | cons c cs ih =>
    have hc := hcs c mem_cons_self
    rw [read_chunks, T.read_chunk_eq hc.1 hc.2, ih fun d hd => hcs d (mem_cons_of_mem _ hd)]
    simp

end RecordText

/-! ### The order of the chunks -/

/-- The chunks of the cores follow each other. -/
structure Tiled (lo hi : ℤ) (cs : List (ℤ × ℤ)) : Prop where
  bounds : ∀ c ∈ cs, lo ≤ c.1 ∧ c.1 ≤ c.2 ∧ c.2 ≤ hi
  ordered : cs.Pairwise fun c d => c.2 ≤ d.1

theorem tiled_chunks {cores file_size : ℕ} (lo : ℤ) (order : List (Fin cores)) :
    Tiled lo (lo + (order.map (my_bytes_each_core file_size)).sum) (chunks file_size lo order) := by
  induction order generalizing lo with
  | nil => exact ⟨nofun, List.Pairwise.nil⟩
  | cons c order ih =>
    have hrest := ih (lo + my_bytes_each_core file_size c)
    simp only [map_cons, sum_cons, chunks, Nat.cast_add]
    constructor
    · intro d hd
      rcases mem_cons.mp hd with rfl | hd
      · simp only
        omega
      · have := hrest.bounds d hd
        omega
    · apply List.Pairwise.cons
      · intro d hd
        exact (hrest.bounds d hd).1
      · exact hrest.ordered

theorem sum_my_bytes {cores file_size : ℕ} (hcores : 0 < cores) {order : List (Fin cores)}
    (horder : order.Perm (List.finRange cores)) :
    (order.map (my_bytes_each_core file_size)).sum = file_size := by
  have : NeZero cores := ⟨hcores.ne'⟩
  rw [(horder.map _).sum_eq, ← Fin.sum_univ_def]
  have hsplit : ∀ c : Fin cores, my_bytes_each_core file_size c =
      file_size / cores + if c = 0 then file_size - file_size / cores * cores else 0 := by
    intro c
    have hzero : c.val = 0 ↔ c = 0 := by rw [Fin.ext_iff, Fin.val_zero]
    simp only [my_bytes_each_core, hzero]
    split_ifs <;> omega
  simp only [hsplit, Finset.sum_add_distrib, Finset.sum_const, Finset.card_univ, Fintype.card_fin,
    Finset.sum_ite_eq', Finset.mem_univ, if_true, smul_eq_mul]
  have hle : file_size / cores * cores ≤ file_size := Nat.div_mul_le_self ..
  rw [mul_comm cores]
  omega

theorem first_line_mono {text : List Char} {s t : ℤ} (hst : s ≤ t) :
    first_line text s ≤ first_line text t := by
  have hmono : Monotone fun k : ℕ => k + ((text.drop k).takeWhile (· ≠ '\n')).length := by
    apply monotone_nat_of_le_succ
    intro k
    cases hd : text.drop k with
    | nil =>
      simp only [takeWhile_nil, length_nil]
      omega
    | cons c rest =>
      have hnext : text.drop (k + 1) = rest := by
        rw [← drop_drop, hd]
        rfl
      rw [hnext, takeWhile_cons]
      split
      · simp only [length_cons]
        omega
      · simp only [length_nil]
        omega
  simp only [first_line]
  split_ifs with h h'
  · have := hmono (show s.toNat ≤ t.toNat by omega)
    simp only at this
    omega
  · omega
  · omega
  · exact le_rfl

theorem reader_mono {text : List Char} {lo hi : ℤ} {cs : List (ℤ × ℤ)} (h : Tiled lo hi cs) :
    ∀ c ∈ cs.map (reader text), ∀ d ∈ cs.map (reader text), c.first < d.first → c.stop ≤ d.stop := by
  intro c hc d hd hlt
  obtain ⟨c, hc', rfl⟩ := mem_map.mp hc
  obtain ⟨d, hd', rfl⟩ := mem_map.mp hd
  have hdb := h.bounds d hd'
  have hne : c ≠ d := by
    rintro rfl
    exact lt_irrefl _ hlt
  have hsymm : Std.Symm fun c d : ℤ × ℤ => c.2 ≤ d.1 ∨ d.2 ≤ c.1 := ⟨fun c d hcd => hcd.symm⟩
  have hordered : cs.Pairwise fun c d => c.2 ≤ d.1 ∨ d.2 ≤ c.1 := h.ordered.imp Or.inl
  rcases hordered.forall hc' hd' hne with hle | hle
  · exact hle.trans hdb.2.1
  · -- `d` comes first
    have hmono := @first_line_mono text d.1 c.1 (hdb.2.1.trans hle)
    exact absurd hlt (not_lt.mpr hmono)

theorem le_offset_of_mem {r : Record} (hr : r ∈ records pos items) : pos ≤ r.offset := by
  induction items generalizing pos with
  | nil => cases hr
  | cons i l ih =>
    rcases mem_cons.mp hr with rfl | hr
    · simp only
      omega
    · have := ih hr
      omega

theorem records_sorted (hbodies : ∀ i ∈ items, i.body ≠ []) :
    (records pos items).Pairwise fun r s => r.offset < s.offset := by
  induction items generalizing pos with
  | nil => exact List.Pairwise.nil
  | cons i l ih =>
    apply List.Pairwise.cons
    · intro r hr
      have hle := le_offset_of_mem hr
      have hpos := length_pos_of_ne_nil (hbodies i mem_cons_self)
      simp only
      omega
    · exact ih fun j hj => hbodies j (mem_cons_of_mem _ hj)

/-- Records with their offsets are as good as records. -/
theorem map_found_perm_iff {l l' : List Record} (hl' : l'.Pairwise fun r s => r.offset < s.offset)
    (hsub : ∀ r ∈ l, r ∈ l') : (l.map Record.found).Perm (l'.map Record.found) ↔ l.Perm l' := by
  constructor
  · intro h
    have hinj : Set.InjOn Record.found {r | r ∈ l'} := by
      intro r hr s hs heq
      by_contra hne
      have hoffset : r.offset = s.offset := congrArg Prod.fst heq
      have hsymm : Std.Symm fun r s : Record => r.offset ≠ s.offset := ⟨fun r s hrs => hrs.symm⟩
      have hdistinct : l'.Pairwise fun r s => r.offset ≠ s.offset := hl'.imp ne_of_lt
      exact hdistinct.forall hr hs hne hoffset
    have : Nonempty Record := ⟨⟨0, 0, false, ⟨0, 0⟩⟩⟩
    have hinv : ∀ r ∈ l', (Function.invFunOn Record.found {r | r ∈ l'} ∘ Record.found) r = id r :=
      fun r hr => hinj.leftInvOn_invFunOn hr
    have hmap := h.map (Function.invFunOn Record.found {r | r ∈ l'})
    rw [map_map, map_map] at hmap
    rwa [map_congr_left fun r hr => hinv r (hsub r hr), map_congr_left hinv,
      map_id, map_id] at hmap
  · exact fun h => h.map _

namespace RecordText

/-- The edges of the text, each with the offset of its text. -/
def found (T : RecordText data) : List Found := T.records.map Record.found

theorem sorted (T : RecordText data) : T.records.Pairwise fun r s => layout.start r < layout.start s := by
  apply records_sorted
  intro i hi hnil
  obtain ⟨c, t, hbody, -⟩ := (T.bodies i hi).head
  rw [hnil] at hbody
  cases hbody

/-- **All edges are read, each once,** exactly if at each edge one core starts, or a core gets
    there that has started before, but not both. -/
theorem read_chunks_perm_iff (T : RecordText data) {lo hi : ℤ} {cs : List (ℤ × ℤ)}
    (h : Tiled lo hi cs) (hlo : T.header.length ≤ lo) (hhi : hi ≤ T.text.length) :
    (∃ l, read_chunks data T.text cs = some l ∧ l.Perm T.found) ↔
      ∀ pre r post, T.records = pre ++ r :: post →
        Relay.Once layout (cs.map (reader T.text)) pre.getLast? r := by
  have hread := T.read_chunks_eq fun c hc => ⟨hlo.trans (h.bounds c hc).1, (h.bounds c hc).2.2.trans hhi⟩
  have hmono := @reader_mono T.text lo hi cs h
  rw [← perm_reads_iff hmono T.sorted, flatMap_map, hread]
  have hsub : ∀ r ∈ cs.flatMap fun c => reads layout (reader T.text c) T.records,
      r ∈ T.records := by
    intro r hr
    obtain ⟨c, -, hc⟩ := mem_flatMap.mp hr
    exact reads_subset hc
  have hiff := map_found_perm_iff T.sorted hsub
  constructor
  · intro hex
    obtain ⟨l, hl, hperm⟩ := hex
    cases hl
    exact hiff.mp hperm
  · intro hperm
    exact ⟨_, rfl, hiff.mpr hperm⟩

end RecordText

end TextChunks

end Grappa
