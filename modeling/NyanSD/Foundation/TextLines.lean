import NyanSD.Foundation.StdString
import Mathlib.Data.List.DropRight
import Mathlib.Data.List.Forall2

/-!
# Lines of text

`fgets` fills a buffer of a fixed size, so a line that does not fit comes in several
pieces. The pieces of a stream are described by a relation, and reading the stream is
the only way to get them. Lines are looked at as C strings, which end at the first zero,
and taken apart into white space around a text that neither starts nor ends with any.
-/

namespace TextLines

open StdString

def newline : UInt8 := 10

/-- What string functions see of a buffer. -/
def cString (buffer : Bytes) : Bytes := buffer.takeWhile (· ≠ 0)

/-! ## Reading a stream -/

/-- Up to `room` bytes but none behind a newline, and what is left of the stream. -/
def takeLine : Nat → Bytes → Bytes × Bytes
  | 0, stream => ([], stream)
  | _ + 1, [] => ([], [])
  | room + 1, c :: stream =>
      if c = newline then ([c], stream)
      else
        let (piece, rest) := takeLine room stream
        (c :: piece, rest)

/-- `fgets` into a buffer of `size` bytes, one of which is for the zero at the end. There is
nothing to return at the end of the stream. -/
def fgets (size : Nat) (stream : Bytes) : Option (Bytes × Bytes) :=
  if stream = [] then none else some (takeLine (size - 1) stream)

/-- What `fgets` returns until the end of the stream, in at most `fuel` calls. -/
def readLoop (size : Nat) : Nat → Bytes → List Bytes
  | 0, _ => []
  | fuel + 1, stream =>
      match fgets size stream with
      | none => []
      | some (piece, rest) => piece :: readLoop size fuel rest

/-- Every call returns a byte or more. -/
def readLines (size : Nat) (stream : Bytes) : List Bytes := readLoop size stream.length stream

/-- How a stream is cut: behind every newline, and wherever the buffer is full. -/
inductive Pieces (size : Nat) : Bytes → List Bytes → Prop
  | done : Pieces size [] []
  | last {text : Bytes} : text ≠ [] → newline ∉ text → text.length + 1 < size →
      Pieces size text [text]
  | line {text rest : Bytes} {pieces : List Bytes} : newline ∉ text → text.length + 1 < size →
      Pieces size rest pieces →
      Pieces size (text ++ newline :: rest) ((text ++ [newline]) :: pieces)
  | full {text rest : Bytes} {pieces : List Bytes} : newline ∉ text → text.length + 1 = size →
      Pieces size rest pieces → Pieces size (text ++ rest) (text :: pieces)

theorem takeLine_line {room : Nat} {text : Bytes} (rest : Bytes) (hfree : newline ∉ text)
    (hroom : text.length < room) :
    takeLine room (text ++ newline :: rest) = (text ++ [newline], rest) := by
  induction text generalizing room with
  | nil =>
      obtain ⟨room, rfl⟩ := Nat.exists_eq_succ_of_ne_zero (Nat.ne_of_gt hroom)
      simp [takeLine]
  | cons c text ih =>
      obtain ⟨room, rfl⟩ := Nat.exists_eq_succ_of_ne_zero (Nat.ne_of_gt (Nat.zero_lt_of_lt hroom))
      have hc : c ≠ newline := fun heq => hfree (heq ▸ List.mem_cons_self)
      have htext := ih (fun hmem => hfree (List.mem_cons_of_mem _ hmem))
        (Nat.lt_of_succ_lt_succ hroom)
      rw [List.cons_append, takeLine, if_neg hc, htext]
      rfl

theorem takeLine_full {text : Bytes} (rest : Bytes) (hfree : newline ∉ text) :
    takeLine text.length (text ++ rest) = (text, rest) := by
  induction text with
  | nil => cases rest <;> rfl
  | cons c text ih =>
      have hc : c ≠ newline := fun heq => hfree (heq ▸ List.mem_cons_self)
      have htext := ih fun hmem => hfree (List.mem_cons_of_mem _ hmem)
      rw [List.length_cons, List.cons_append, takeLine, if_neg hc, htext]

theorem takeLine_last {room : Nat} {text : Bytes} (hfree : newline ∉ text)
    (hroom : text.length ≤ room) : takeLine room text = (text, []) := by
  induction text generalizing room with
  | nil => cases room <;> rfl
  | cons c text ih =>
      obtain ⟨room, rfl⟩ := Nat.exists_eq_succ_of_ne_zero (Nat.ne_of_gt (Nat.zero_lt_of_lt hroom))
      have hc : c ≠ newline := fun heq => hfree (heq ▸ List.mem_cons_self)
      have htext := ih (fun hmem => hfree (List.mem_cons_of_mem _ hmem))
        (Nat.le_of_succ_le_succ hroom)
      rw [takeLine, if_neg hc, htext]

/-- A stream that is cut as described is read in these pieces. -/
theorem Pieces.readLoop_eq {size fuel : Nat} {stream : Bytes} {pieces : List Bytes}
    (hsize : 1 < size) (hpieces : Pieces size stream pieces) (hfuel : stream.length ≤ fuel) :
    readLoop size fuel stream = pieces := by
  induction hpieces generalizing fuel with
  | done => cases fuel <;> rfl
  | last hne hfree hshort =>
      have hlength := List.length_pos_of_ne_nil hne
      obtain ⟨fuel, rfl⟩ := Nat.exists_eq_succ_of_ne_zero (show fuel ≠ 0 by omega)
      rw [readLoop, fgets, if_neg hne, takeLine_last hfree (by omega)]
      cases fuel <;> rfl
  | line hfree hshort _ ih =>
      rw [List.length_append, List.length_cons] at hfuel
      obtain ⟨fuel, rfl⟩ := Nat.exists_eq_succ_of_ne_zero (show fuel ≠ 0 by omega)
      rw [readLoop, fgets, if_neg (by simp), takeLine_line _ hfree (by omega)]
      dsimp only
      rw [ih (by omega)]
  | @full text rest pieces hfree hfull _ ih =>
      rw [List.length_append] at hfuel
      have hne : text ++ rest ≠ [] := by
        have hlength : 0 < (text ++ rest).length := by
          rw [List.length_append]
          omega
        exact List.ne_nil_of_length_pos hlength
      have hroom : size - 1 = text.length := by omega
      obtain ⟨fuel, rfl⟩ := Nat.exists_eq_succ_of_ne_zero (show fuel ≠ 0 by omega)
      rw [readLoop, fgets, if_neg hne, hroom, takeLine_full rest hfree]
      dsimp only
      rw [ih (by omega)]

/-- Every stream is cut somehow: its beginning decides where the first piece ends. -/
theorem exists_pieces {size : Nat} (hsize : 1 < size) (stream : Bytes) :
    ∃ pieces, Pieces size stream pieces := by
  induction hlength : stream.length using Nat.strong_induction_on generalizing stream with
  | _ length ih =>
    by_cases hnone : stream = []
    · exact ⟨[], hnone ▸ .done⟩
    have hsplit := List.take_append_drop (size - 1) stream
    by_cases hmem : newline ∈ stream.take (size - 1)
    · obtain ⟨text, more, htake, hfree⟩ := List.eq_append_cons_of_mem hmem
      rw [htake, List.append_assoc, List.cons_append] at hsplit
      have hshort := congrArg List.length htake
      have htotal := congrArg List.length hsplit
      simp only [List.length_append, List.length_cons, List.length_take] at hshort htotal
      obtain ⟨pieces, hpieces⟩ := ih (more ++ stream.drop (size - 1)).length
        (by rw [List.length_append]; omega) _ rfl
      rw [← hsplit]
      exact ⟨_, .line hfree (by omega) hpieces⟩
    by_cases hshort : stream.length + 1 < size
    · rw [List.take_of_length_le (by omega)] at hmem
      exact ⟨_, .last hnone hmem hshort⟩
    · have hfull : (stream.take (size - 1)).length + 1 = size := by
        rw [List.length_take]
        omega
      obtain ⟨pieces, hpieces⟩ := ih (stream.drop (size - 1)).length
        (by rw [List.length_drop]; omega) _ rfl
      rw [← hsplit]
      exact ⟨_, .full hmem hfull hpieces⟩

/-- Reading a stream to its end cuts it in the one way it can be cut. -/
theorem readLines_eq_iff {size : Nat} (hsize : 1 < size) {stream : Bytes} {pieces : List Bytes} :
    readLines size stream = pieces ↔ Pieces size stream pieces := by
  constructor
  · intro heq
    obtain ⟨found, hfound⟩ := exists_pieces hsize stream
    have hread : readLines size stream = found := hfound.readLoop_eq hsize (Nat.le_refl _)
    rwa [← heq, hread]
  · intro hpieces
    exact hpieces.readLoop_eq hsize (Nat.le_refl _)

/-- Lines that fit into the buffer are read one by one. -/
theorem pieces_of_lines {size : Nat} {lines : List Bytes}
    (hlines : ∀ line ∈ lines, newline ∉ line ∧ line.length + 1 < size) :
    Pieces size (lines.flatMap fun line => line ++ [newline])
      (lines.map fun line => line ++ [newline]) := by
  induction lines with
  | nil => exact .done
  | cons line rest ih =>
      obtain ⟨⟨hfree, hshort⟩, hrest⟩ := List.forall_mem_cons.mp hlines
      rw [List.flatMap_cons, List.map_cons, List.append_assoc]
      exact .line hfree hshort (ih hrest)

/-- With pieces made into empty lines, the others are read as before. -/
theorem Pieces.emptied {size : Nat} (hsize : 1 < size) {stream : Bytes}
    {pieces others : List Bytes} (hpieces : Pieces size stream pieces)
    (hothers : List.Forall₂ (fun piece other => other = piece ∨ other = [newline]) pieces others) :
    Pieces size others.flatten others := by
  have hempty : ∀ {rest : Bytes} {more : List Bytes}, Pieces size rest more →
      Pieces size ([newline] ++ rest) ([newline] :: more) := fun hmore =>
    @Pieces.line size [] _ _ List.not_mem_nil hsize hmore
  induction hpieces generalizing others with
  | done =>
      cases hothers
      exact .done
  | last hne hfree hshort =>
      obtain ⟨other, _, rfl | rfl, hnil, rfl⟩ := List.forall₂_cons_left_iff.mp hothers
      all_goals cases hnil
      · simpa using Pieces.last hne hfree hshort
      · exact hempty .done
  | line hfree hshort _ ih =>
      obtain ⟨other, more, rfl | rfl, hmore, rfl⟩ := List.forall₂_cons_left_iff.mp hothers
      · simpa using Pieces.line hfree hshort (ih hmore)
      · exact hempty (ih hmore)
  | full hfree hfull _ ih =>
      obtain ⟨other, more, rfl | rfl, hmore, rfl⟩ := List.forall₂_cons_left_iff.mp hothers
      · exact .full hfree hfull (ih hmore)
      · exact hempty (ih hmore)

/-! ## White space around a text -/

def Blank (text : Bytes) : Prop := ∀ c ∈ text, isSpace c = true

/-- The first character, if any, is not white space. -/
def TightHead (text : Bytes) : Prop := ∀ c ∈ text.head?, isSpace c = false

/-- The last character, if any, is not white space. -/
def TightLast (text : Bytes) : Prop := ∀ c ∈ text.getLast?, isSpace c = false

instance : DecidablePred TightHead := fun text => Option.decidableForallMem text.head?

instance : DecidablePred TightLast := fun text => Option.decidableForallMem text.getLast?

theorem tightHead_cons {c : UInt8} (rest : Bytes) (hc : isSpace c = false) :
    TightHead (c :: rest) := by
  intro first hfirst
  obtain rfl := Option.some.inj hfirst
  exact hc

theorem TightHead.append {text : Bytes} (htext : TightHead text) (hne : text ≠ [])
    (rest : Bytes) : TightHead (text ++ rest) := by
  rw [TightHead, List.head?_append_of_ne_nil text hne]
  exact htext

theorem TightLast.append {text : Bytes} (htext : TightLast text) (hne : text ≠ [])
    (before : Bytes) : TightLast (before ++ text) := by
  rw [TightLast, List.getLast?_append_of_ne_nil before hne]
  exact htext

theorem Blank.append {first second : Bytes} (hfirst : Blank first) (hsecond : Blank second) :
    Blank (first ++ second) := List.forall_mem_append.mpr ⟨hfirst, hsecond⟩

theorem dropWhile_blank_append {lead text : Bytes} (hlead : Blank lead) (htext : TightHead text) :
    (lead ++ text).dropWhile isSpace = text := by
  rw [List.dropWhile_append_of_pos hlead]
  cases text with
  | nil => rfl
  | cons c rest => exact List.dropWhile_cons_of_neg (by simpa using htext c rfl)

theorem rdropWhile_append_blank {text trail : Bytes} (htext : TightLast text)
    (htrail : Blank trail) : (text ++ trail).rdropWhile isSpace = text := by
  have hreverse : TightHead text.reverse := by
    rw [TightHead, List.head?_reverse]
    exact htext
  have hblank : Blank trail.reverse := fun c hc => htrail c (List.mem_reverse.mp hc)
  rw [List.rdropWhile, List.reverse_append, dropWhile_blank_append hblank hreverse,
    List.reverse_reverse]

theorem tightHead_dropWhile (text : Bytes) : TightHead (text.dropWhile isSpace) := by
  intro c hc
  have hnot := List.head?_dropWhile_not isSpace text
  rw [Option.mem_def] at hc
  simpa [hc] using hnot

/-- What stands in front of the text that is left is white space. -/
theorem exists_lead (text : Bytes) :
    ∃ lead, text = lead ++ text.dropWhile isSpace ∧ Blank lead :=
  ⟨text.takeWhile isSpace, List.takeWhile_append_dropWhile.symm,
    fun _ => List.mem_takeWhile_imp⟩

theorem exists_trail (text : Bytes) :
    ∃ trail, text = text.rdropWhile isSpace ++ trail ∧ Blank trail :=
  ⟨text.rtakeWhile isSpace, (List.rdropWhile_append_rtakeWhile (p := isSpace) (l := text)).symm,
    fun _ => List.mem_rtakeWhile_imp⟩

theorem tightLast_rdropWhile (text : Bytes) : TightLast (text.rdropWhile isSpace) := by
  intro c hc
  have hhead := tightHead_dropWhile text.reverse
  rw [List.rdropWhile, List.getLast?_reverse] at hc
  exact hhead c hc

/-- Nothing in front of a character that is not white space is stripped from the end. -/
theorem rdropWhile_append_cons {c : UInt8} (before rest : Bytes) (hc : isSpace c = false) :
    (before ++ c :: rest).rdropWhile isSpace = before ++ c :: rest.rdropWhile isSpace := by
  obtain ⟨trail, hrest, htrail⟩ := exists_trail rest
  have htight : TightLast (before ++ c :: rest.rdropWhile isSpace) := by
    intro last hlast
    rw [List.getLast?_append, List.getLast?_cons] at hlast
    cases hkept : (rest.rdropWhile isSpace).getLast? with
    | none =>
        rw [hkept] at hlast
        obtain rfl := Option.some.inj hlast
        exact hc
    | some kept =>
        rw [hkept] at hlast
        obtain rfl := Option.some.inj hlast
        exact tightLast_rdropWhile rest kept hkept
  calc (before ++ c :: rest).rdropWhile isSpace
      = (before ++ c :: rest.rdropWhile isSpace ++ trail).rdropWhile isSpace := by
        rw [List.append_assoc, List.cons_append, ← hrest]
    _ = before ++ c :: rest.rdropWhile isSpace := rdropWhile_append_blank htight htrail

end TextLines
