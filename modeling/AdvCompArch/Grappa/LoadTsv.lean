import AdvCompArch.Grappa.TextChunks

/-! # Loading a text of edges

    `load_tsv` reads a file of edge lines and comment lines in parallel.  It reads each edge
    once if the borders of the chunks are kind: `load_tsv_iff`. -/

namespace Grappa

open List

open TupleGraph (Edge)
open DecimalText InStream TextChunks

/-- `TupleGraph::load_tsv`, up to the edges that the cores have read. -/
def load_tsv {cores : ℕ} (text : List Char) (order : List (Fin cores)) : Option (List Found) :=
  read_chunks id text (chunks text.length 0 order)

inductive TsvLine where
  | edge (v0 v1 : Numeral)
  | comment (text : List Char)

namespace TsvLine

def text : TsvLine → List Char
  | .edge v0 v1 => v0.text ++ ' ' :: (v1.text ++ ['\n'])
  | .comment c => '#' :: c ++ ['\n']

/-- The ids are integers of 64 bits, and a comment is one line. -/
def Ok : TsvLine → Prop
  | .edge v0 v1 => InRange v0.value ∧ InRange v1.value
  | .comment c => '\n' ∉ c

instance : DecidablePred Ok
  | .edge v0 v1 => inferInstanceAs (Decidable (InRange v0.value ∧ InRange v1.value))
  | .comment c => inferInstanceAs (Decidable ('\n' ∉ c))

/-- The edges of the lines, and where they are. -/
def records : ℤ → Bool → List TsvLine → List Record
  | _, _, [] => []
  | pos, _, .comment c :: l => records (pos + (TsvLine.comment c).text.length) true l
  | pos, blocked, .edge v0 v1 :: l =>
    ⟨pos, pos + (v0.text ++ ' ' :: v1.text).length, blocked, ⟨v0.value, v1.value⟩⟩ ::
      records (pos + (TsvLine.edge v0 v1).text.length) false l

/-- The lines as items, and what is behind the last. -/
def items (gap : List Char) (blocked : Bool) : List TsvLine → List Item × List Char × Bool
  | [] => ([], gap, blocked)
  | .comment c :: l => items (gap ++ (TsvLine.comment c).text) true l
  | .edge v0 v1 :: l =>
    let rest := items ['\n'] false l
    (⟨gap, blocked, v0.text ++ ' ' :: v1.text, ⟨v0.value, v1.value⟩⟩ :: rest.1, rest.2)

end TsvLine

structure TsvFile where
  lines : List TsvLine
  ok : ∀ l ∈ lines, l.Ok

namespace TsvFile

/-- The text of the file. -/
def text (f : TsvFile) : List Char := f.lines.flatMap TsvLine.text

/-- The edges of the file, and where they are. -/
def records (f : TsvFile) : List Record := TsvLine.records 0 false f.lines

/-- The edges of the file, each with the offset of its line. -/
def edges (f : TsvFile) : List Found := f.records.map Record.found

end TsvFile

/-! ### The lines as a text that the loop reads -/

namespace TsvLine

/-- The text of some comments. -/
def commentText (cs : List (List Char)) : List Char := cs.flatMap fun c => (TsvLine.comment c).text

/-- The gap that has been found so far begins with `start` and goes on with comments. -/
def IsCommentGap (start gap : List Char) (blocked : Bool) : Prop :=
  ∃ cs : List (List Char), gap = start ++ commentText cs ∧ (∀ c ∈ cs, '\n' ∉ c) ∧
    (blocked = true ↔ cs ≠ [])

variable {start gap : List Char} {blocked : Bool} {cs : List (List Char)}

theorem commentText_cons (c : List Char) (cs : List (List Char)) :
    commentText (c :: cs) = ('#' :: c) ++ '\n' :: commentText cs := by
  simp [commentText, text]

theorem comments_commentText (hcs : ∀ c ∈ cs, '\n' ∉ c) : Comments (commentText cs) := by
  induction cs with
  | nil => exact Comments.blanks nofun
  | cons c cs ih =>
    rw [commentText_cons]
    exact Comments.comment (hcs c mem_cons_self) (ih fun d hd => hcs d (mem_cons_of_mem _ hd))

theorem IsCommentGap.snoc (h : IsCommentGap start gap blocked) {c : List Char} (hc : '\n' ∉ c) :
    IsCommentGap start (gap ++ (TsvLine.comment c).text) true := by
  obtain ⟨cs, rfl, hcs, -⟩ := h
  refine ⟨cs ++ [c], by simp [commentText], ?_, by simp⟩
  intro d hd
  rcases mem_append.mp hd with hd | hd
  · exact hcs d hd
  · rwa [mem_singleton.mp hd]

theorem isCommentGap_nil (start : List Char) : IsCommentGap start start false :=
  ⟨[], by simp [commentText], nofun, by simp⟩

/-- What follows the end of a line in some comments are comments. -/
theorem comments_of_commentText {front h : List Char} (hcs : ∀ c ∈ cs, '\n' ∉ c)
    (heq : commentText cs = front ++ '\n' :: h) : Comments h := by
  induction cs generalizing front with
  | nil => simp [commentText] at heq
  | cons c cs ih =>
    have hrest : ∀ d ∈ cs, '\n' ∉ d := fun d hd => hcs d (mem_cons_of_mem _ hd)
    rw [commentText_cons] at heq
    obtain ⟨t, hline, -⟩ | ⟨t, -, htail⟩ := split_newline heq
    · -- the comment has no end of a line
      have hmem : '\n' ∈ '#' :: c := by simp [hline]
      rcases mem_cons.mp hmem with heq | hmem
      · exact absurd heq (by decide)
      · exact absurd hmem (hcs c mem_cons_self)
    · cases t with
      | nil =>
        obtain ⟨-, rfl⟩ := cons.inj htail
        exact comments_commentText hrest
      | cons a t => exact ih hrest (cons.inj htail).2

theorem IsCommentGap.isGap (hstart : start = [] ∨ start = ['\n'])
    (h : IsCommentGap start gap blocked) : IsGap gap blocked := by
  obtain ⟨cs, rfl, hcs, hblocked⟩ := h
  have hspace : ∀ c ∈ start, isSpace c = true := by
    rcases hstart with rfl | rfl
    · exact nofun
    · simp [isSpace]
  constructor
  · intro hb
    have hnil : cs = [] := by
      by_contra hne
      rw [hblocked.mpr hne] at hb
      cases hb
    simpa [hnil, commentText] using hspace
  · intro hb
    obtain ⟨c, cs, rfl⟩ := exists_cons_of_ne_nil (hblocked.mp hb)
    rw [commentText_cons]
    exact ⟨_, dropWhile_blanks hspace (by decide)⟩
  · intro front h heq
    rcases hstart with rfl | rfl
    · exact comments_of_commentText hcs heq
    · cases front with
      | nil =>
        obtain ⟨-, rfl⟩ := cons.inj heq
        exact comments_commentText hcs
      | cons a front => exact comments_of_commentText hcs (cons.inj heq).2

theorem not_newline (v : Numeral) : '\n' ∉ v.text := fun h =>
  absurd (v.not_isSpace_of_mem h) (by decide)

theorem reads_edge {v0 v1 : Numeral} (h : (TsvLine.edge v0 v1).Ok) :
    Reads id (v0.text ++ ' ' :: v1.text) ⟨v0.value, v1.value⟩ := by
  constructor
  case head =>
    obtain ⟨c, t, ht, hc, hcomment, -⟩ := v0.exists_cons
    exact ⟨c, t ++ ' ' :: v1.text, by simp [ht], hc, hcomment⟩
  case no_newline =>
    intro hmem
    rcases mem_append.mp hmem with hmem | hmem
    · exact not_newline v0 hmem
    · rcases mem_cons.mp hmem with heq | hmem
      · exact absurd heq (by decide)
      · exact not_newline v1 hmem
  case read =>
    intro blanks rest hblanks hrest
    have hsep : ∀ c ∈ [' '], isSpace c = true := forall_mem_singleton.mpr rfl
    have hread := @read_entry_numerals id v0 v1 h.1 h.2 blanks [' '] rest hblanks hsep
      (cons_ne_nil _ _) hrest
    simpa using hread

/-- What the lines are as items. -/
structure ItemsSpec (start gap : List Char) (blocked : Bool) (lines : List TsvLine)
    (items : List Item) (last : List Char) (last_blocked : Bool) : Prop where
  text : itemsText last items = gap ++ lines.flatMap TsvLine.text
  records : ∀ pos, TextChunks.records pos items = records (pos + gap.length) blocked lines
  bodies : ∀ i ∈ items, Reads id i.body i.edge
  head : ∀ i ∈ items.head?, IsCommentGap start i.gap i.blocked
  tail : ∀ i ∈ items.tail, IsCommentGap ['\n'] i.gap i.blocked
  last_of_nil : items = [] → IsCommentGap start last last_blocked
  last_of_ne_nil : items ≠ [] → IsCommentGap ['\n'] last last_blocked

theorem items_spec {lines : List TsvLine} (hok : ∀ l ∈ lines, l.Ok)
    (hgap : IsCommentGap start gap blocked) : ItemsSpec start gap blocked lines
      (items gap blocked lines).1 (items gap blocked lines).2.1 (items gap blocked lines).2.2 := by
  induction lines generalizing start gap blocked with
  | nil =>
    constructor
    case text => simp [items, itemsText]
    case records => exact fun pos => rfl
    case bodies | head | tail =>
      intro i hi
      cases hi
    case last_of_nil => exact fun _ => hgap
    case last_of_ne_nil => exact fun h => absurd rfl h
  | cons line lines ih =>
    have hline := hok line mem_cons_self
    have hrest := fun l hl => hok l (mem_cons_of_mem _ hl)
    cases line with
    | comment c =>
      -- the comment becomes a part of the gap
      have hspec := ih hrest (hgap.snoc hline)
      constructor
      case text => simpa [items] using hspec.text
      case records =>
        intro pos
        rw [items, hspec.records, TsvLine.records, length_append]
        push_cast
        rw [add_assoc]
      case bodies => exact hspec.bodies
      case head => exact hspec.head
      case tail => exact hspec.tail
      case last_of_nil => exact hspec.last_of_nil
      case last_of_ne_nil => exact hspec.last_of_ne_nil
    | edge v0 v1 =>
      have hspec := ih hrest (isCommentGap_nil ['\n'])
      constructor
      case text => simp [items, itemsText, hspec.text, TsvLine.text]
      case records =>
        intro pos
        have hlen : (TsvLine.edge v0 v1).text.length = (v0.text ++ ' ' :: v1.text).length + 1 := by
          simp [TsvLine.text]
          omega
        simp only [items, TextChunks.records, TsvLine.records, hspec.records, hlen]
        push_cast
        simp [add_assoc]
      case bodies =>
        intro i hi
        rcases mem_cons.mp hi with rfl | hi
        · exact reads_edge hline
        · exact hspec.bodies i hi
      case head =>
        intro i hi
        cases hi
        exact hgap
      case tail =>
        intro i hi
        change i ∈ (items ['\n'] false lines).1 at hi
        cases hitems : (items ['\n'] false lines).1 with
        | nil =>
          rw [hitems] at hi
          cases hi
        | cons j l =>
          rw [hitems] at hi
          rcases mem_cons.mp hi with rfl | hi
          · exact hspec.head i (by rw [hitems]; rfl)
          · exact hspec.tail i (by rw [hitems]; exact hi)
      case last_of_nil => exact fun h => absurd h (cons_ne_nil _ _)
      case last_of_ne_nil =>
        intro _
        by_cases hnil : (items ['\n'] false lines).1 = []
        · exact hspec.last_of_nil hnil
        · exact hspec.last_of_ne_nil hnil

/-- A text may start with comments. -/
theorem IsCommentGap.comments (h : IsCommentGap [] gap blocked) : Comments gap := by
  obtain ⟨cs, rfl, hcs, -⟩ := h
  exact comments_commentText hcs

theorem IsCommentGap.exists_cons (h : IsCommentGap ['\n'] gap blocked) :
    ∃ c t, gap = c :: t ∧ isSpace c = true := by
  obtain ⟨cs, rfl, -⟩ := h
  exact ⟨'\n', commentText cs, rfl, by decide⟩

end TsvLine

namespace TsvFile

open TsvLine

variable (f : TsvFile)

theorem spec : ItemsSpec [] [] false f.lines (items [] false f.lines).1
    (items [] false f.lines).2.1 (items [] false f.lines).2.2 :=
  items_spec f.ok (isCommentGap_nil [])

/-- The file as a text that the loop reads. -/
def recordText : RecordText id where
  header := []
  items := (items [] false f.lines).1
  last := (items [] false f.lines).2.1
  last_blocked := (items [] false f.lines).2.2
  gaps := by
    intro i hi
    have hhead := f.spec.head
    have htail := f.spec.tail
    cases hitems : (items [] false f.lines).1 with
    | nil =>
      rw [hitems] at hi
      cases hi
    | cons j l =>
      rw [hitems] at hi hhead htail
      rcases List.mem_cons.mp hi with rfl | hi
      · exact (hhead i rfl).isGap (.inl rfl)
      · exact (htail i hi).isGap (.inr rfl)
  last_gap := by
    by_cases hnil : (items [] false f.lines).1 = []
    · exact (f.spec.last_of_nil hnil).isGap (.inl rfl)
    · exact (f.spec.last_of_ne_nil hnil).isGap (.inr rfl)
  bodies := f.spec.bodies
  blank_gaps := fun i hi => (f.spec.tail i hi).exists_cons
  blank_last := by
    intro hne
    obtain ⟨c, t, hlast, hc⟩ := (f.spec.last_of_ne_nil hne).exists_cons
    intro d hd
    rw [hlast] at hd
    cases hd
    exact hc
  starts_line := by
    intro _
    have hhead := f.spec.head
    cases hitems : (items [] false f.lines).1 with
    | nil => exact (f.spec.last_of_nil hitems).comments
    | cons j l =>
      rw [hitems] at hhead
      exact (hhead j rfl).comments

theorem text_recordText : f.recordText.text = f.text := by
  rw [RecordText.text, recordText, nil_append, f.spec.text, nil_append, text]

theorem records_recordText : f.recordText.records = f.records := by
  have h := f.spec.records 0
  simpa [RecordText.records, recordText, records] using h

/-- The chunks of the cores, when they fetch and add in this order. -/
def chunks {cores : ℕ} (order : List (Fin cores)) : List (ℤ × ℤ) :=
  TextChunks.chunks f.text.length 0 order

/-- What a core reads begins with the first line that starts in its chunk, behind the line that it
    skips.  This is the condition for an edge `r`, which comes after the edge `prev`: either one
    core begins with it, or `prev` is directly before it and some core that begins with `prev` or
    an earlier edge has its end behind `prev`; but not both. -/
def OwnedOnce {cores : ℕ} (order : List (Fin cores)) (prev : Option Record) (r : Record) : Prop :=
  Relay.Once layout ((f.chunks order).map (reader f.text)) prev r

end TsvFile

/-- **Exactly when every edge is read once**: if every edge is owned by one core, whatever the
    number of cores and the order in which they fetch the offsets of their chunks. -/
theorem load_tsv_iff (f : TsvFile) {cores : ℕ} (hcores : 0 < cores) {order : List (Fin cores)}
    (horder : order.Perm (List.finRange cores)) :
    (∃ l, load_tsv f.text order = some l ∧ l.Perm f.edges) ↔
      ∀ pre r post, f.records = pre ++ r :: post → f.OwnedOnce order pre.getLast? r := by
  have htiled : Tiled 0 _ (f.chunks order) := tiled_chunks 0 order
  rw [sum_my_bytes hcores horder, zero_add] at htiled
  have hhi : (f.text.length : ℤ) ≤ f.recordText.text.length := by rw [f.text_recordText]
  have hiff := f.recordText.read_chunks_perm_iff htiled le_rfl hhi
  rw [RecordText.found, f.records_recordText, f.text_recordText] at hiff
  exact hiff

/-- Four lines of four bytes. -/
def four_lines : TsvFile where
  lines := [.edge (.ofNat 0) (.ofNat 1), .edge (.ofNat 2) (.ofNat 3), .edge (.ofNat 4) (.ofNat 5),
    .edge (.ofNat 6) (.ofNat 7)]
  ok := by decide +kernel

/-- On four cores the last two lines are not read: each core skips its line, and then it is at the
    end of its chunk. -/
theorem four_lines_on_four_cores : ¬∃ l, load_tsv four_lines.text (List.finRange 4) = some l ∧
    (l.map Prod.snd).Perm (four_lines.edges.map Prod.snd) := by
  have hload : load_tsv four_lines.text (finRange 4) =
      some [(0, ⟨0, 1⟩), (4, ⟨2, 3⟩)] := by decide +kernel
  have hedges : four_lines.edges.length = 4 := by decide +kernel
  intro h
  obtain ⟨l, hl, hperm⟩ := h
  rw [hload] at hl
  cases hl
  have hlen := hperm.length_eq
  rw [length_map, length_map, hedges] at hlen
  cases hlen

/-- On two cores they are read, here when core `1` comes first. -/
theorem four_lines_on_two_cores : ∃ l, load_tsv four_lines.text [1, (0 : Fin 2)] = some l ∧
    l.Perm four_lines.edges := by
  have horder : [1, (0 : Fin 2)].Perm (finRange 2) := by decide
  apply (load_tsv_iff four_lines Nat.two_pos horder).mpr
  have hrecords : four_lines.records = [⟨0, 3, false, ⟨0, 1⟩⟩, ⟨4, 7, false, ⟨2, 3⟩⟩,
      ⟨8, 11, false, ⟨4, 5⟩⟩, ⟨12, 15, false, ⟨6, 7⟩⟩] := by decide +kernel
  have hchunks : (four_lines.chunks [1, (0 : Fin 2)]).map (reader four_lines.text) =
      [⟨0, 8⟩, ⟨12, 16⟩] := by decide +kernel
  intro pre r post hsplit
  rw [TsvFile.OwnedOnce, hchunks]
  rw [hrecords] at hsplit
  obtain _ | ⟨p, _ | ⟨q, _ | ⟨u, _ | ⟨v, pre⟩⟩⟩⟩ := pre
  all_goals
    simp only [nil_append, cons_append, cons.injEq, nil_eq, append_eq_nil_iff,
      reduceCtorEq, and_false] at hsplit
  · obtain ⟨rfl, -⟩ := hsplit
    decide +kernel
  · obtain ⟨rfl, rfl, -⟩ := hsplit
    decide +kernel
  · obtain ⟨rfl, rfl, rfl, -⟩ := hsplit
    decide +kernel
  · obtain ⟨rfl, rfl, rfl, rfl, -⟩ := hsplit
    decide +kernel

end Grappa
