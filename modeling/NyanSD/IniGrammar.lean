import NyanSD.Ini
import Mathlib.Data.List.Chain

/-!
# The lines of an INI file

What a line says is described by a grammar, apart from the scanner that reads it. The
grammar knows one thing about the lines before: whether there is a value that a line
with leading white space continues. Every line has one reading, and a bad one is a
reading too.
-/

namespace NyanSD.Ini

open StdString TextLines

/-- What a line says. -/
inductive Item
  | nothing
  | header (title : Bytes)
  | entry (name value : Bytes)
  | continuation (text : Bytes)
  | bad
deriving DecidableEq, Repr

/-! ## Comments inside a line -/

/-- A semicolon starts a comment behind white space only. -/
def NoComment (c next : UInt8) : Prop := ¬ (isSpace c = true ∧ next = semicolon)

instance : DecidableRel NoComment := fun _ _ => inferInstanceAs (Decidable (¬ (_ ∧ _)))

/-- No comment starts inside the text. -/
def Bare (text : Bytes) : Prop := text.IsChain NoComment

instance : DecidablePred Bare := fun text => inferInstanceAs (Decidable (text.IsChain NoComment))

/-- The scanner stops behind the text: at the end, at one of the characters or at a comment. -/
def StopsAt (chars text found : Bytes) : Prop :=
  ∀ c ∈ found.head?, c ∈ chars ∨ c = semicolon ∧ ∃ last ∈ text.getLast?, isSpace last = true

theorem stopsAt_of_mem {chars : Bytes} {c : UInt8} (text rest : Bytes) (hc : c ∈ chars) :
    StopsAt chars text (c :: rest) := by
  intro first hfirst
  obtain rfl := Option.some.inj hfirst
  exact .inl hc

theorem bare_append {first second : Bytes} (hfirst : Bare first) (hsecond : Bare second)
    (hhead : semicolon ∉ second.head?) : Bare (first ++ second) := by
  apply List.isChain_append.mpr
  refine ⟨hfirst, hsecond, ?_⟩
  rintro last - next hnext ⟨-, rfl⟩
  exact hhead hnext

theorem Bare.left {first second : Bytes} (hbare : Bare (first ++ second)) : Bare first :=
  (List.isChain_append.mp hbare).1

theorem semicolon_not_mem_blank {pad : Bytes} (hpad : Blank pad) : semicolon ∉ pad :=
  fun hmem => absurd (hpad _ hmem) (by decide)

theorem bare_of_blank {pad : Bytes} (hpad : Blank pad) : Bare pad := by
  apply List.isChain_iff_forall_rel_of_append_cons_cons.mpr
  rintro c next before after rfl ⟨-, rfl⟩
  exact semicolon_not_mem_blank hpad (by simp)

/-- The character in front of the text says whether white space is behind the scanner. -/
theorem findCharsOrComment_append {chars text found : Bytes} (previous : UInt8)
    (hfree : ∀ c ∈ text, c ∉ chars) (hbare : Bare (previous :: text))
    (hstops : StopsAt chars (previous :: text) found) :
    findCharsOrComment chars (isSpace previous) (text ++ found) = (text, found) := by
  induction text generalizing previous with
  | nil =>
      cases found with
      | nil => rfl
      | cons c rest =>
          rw [List.nil_append, findCharsOrComment, if_pos]
          refine (hstops c rfl).imp_right ?_
          rintro ⟨hc, last, hlast, hspace⟩
          obtain rfl := Option.some.inj hlast
          exact ⟨hspace, hc⟩
  | cons c text ih =>
      obtain ⟨hc, htext⟩ := List.forall_mem_cons.mp hfree
      obtain ⟨hfirst, hrest⟩ := List.isChain_cons_cons.mp hbare
      have hgo : ¬ (c ∈ chars ∨ isSpace previous = true ∧ c = semicolon) :=
        not_or.mpr ⟨hc, hfirst⟩
      rw [StopsAt, List.getLast?_cons_cons] at hstops
      rw [List.cons_append, findCharsOrComment, if_neg hgo, ih c htext hrest hstops]

/-- Wherever the scanner stops, nothing in front would have stopped it. -/
theorem exists_findCharsOrComment (chars : Bytes) (previous : UInt8) (text : Bytes) :
    ∃ before found, text = before ++ found ∧ (∀ c ∈ before, c ∉ chars) ∧
      Bare (previous :: before) ∧ StopsAt chars (previous :: before) found ∧
      findCharsOrComment chars (isSpace previous) text = (before, found) := by
  induction text generalizing previous with
  | nil => exact ⟨[], [], rfl, List.forall_mem_nil _, .singleton _, nofun, rfl⟩
  | cons c rest ih =>
      by_cases hstop : c ∈ chars ∨ isSpace previous = true ∧ c = semicolon
      · refine ⟨[], c :: rest, rfl, List.forall_mem_nil _, .singleton _, ?_, ?_⟩
        · intro first hfirst
          obtain rfl := Option.some.inj hfirst
          exact hstop.imp_right fun ⟨hspace, hc⟩ => ⟨hc, previous, rfl, hspace⟩
        · rw [findCharsOrComment, if_pos hstop]
      · obtain ⟨before, found, rfl, hfree, hbare, hstops, hfound⟩ := ih c
        obtain ⟨hc, hfirst⟩ := not_or.mp hstop
        refine ⟨c :: before, found, rfl, List.forall_mem_cons.mpr ⟨hc, hfree⟩,
          List.isChain_cons_cons.mpr ⟨hfirst, hbare⟩, ?_, ?_⟩
        · rw [StopsAt, List.getLast?_cons_cons]
          exact hstops
        · rw [findCharsOrComment, if_neg hstop, hfound]

/-- At the start of a scan no white space has been passed. -/
theorem bare_cons_equals {text : Bytes} (hbare : Bare text) : Bare (equals :: text) := by
  cases text with
  | nil => exact .singleton _
  | cons c rest =>
      exact List.isChain_cons_cons.mpr ⟨fun hcomment => absurd hcomment.1 (by decide), hbare⟩

theorem stopsAt_cons_equals_iff {chars text found : Bytes} :
    StopsAt chars (equals :: text) found ↔ StopsAt chars text found := by
  have hlast : (∃ last ∈ (equals :: text).getLast?, isSpace last = true) ↔
      ∃ last ∈ text.getLast?, isSpace last = true := by
    cases text with
    | nil => decide
    | cons c rest => rw [List.getLast?_cons_cons]
  rw [StopsAt, StopsAt, hlast]

theorem findCharsOrComment_eq {chars text found : Bytes} (hfree : ∀ c ∈ text, c ∉ chars)
    (hbare : Bare text) (hstops : StopsAt chars text found) :
    findCharsOrComment chars false (text ++ found) = (text, found) :=
  findCharsOrComment_append equals hfree (bare_cons_equals hbare)
    (stopsAt_cons_equals_iff.mpr hstops)

theorem exists_found (chars text : Bytes) :
    ∃ before found, text = before ++ found ∧ (∀ c ∈ before, c ∉ chars) ∧ Bare before ∧
      StopsAt chars before found := by
  obtain ⟨before, found, heq, hfree, hbare, hstops, -⟩ :=
    exists_findCharsOrComment chars equals text
  exact ⟨before, found, heq, hfree, hbare.tail, stopsAt_cons_equals_iff.mp hstops⟩

/-! ## The end of a line -/

/-- White space, and behind that a comment. -/
def Trails (trail : Bytes) : Prop :=
  Blank trail ∨ ∃ pad comment, pad ≠ [] ∧ Blank pad ∧ trail = pad ++ semicolon :: comment

theorem trails_nil : Trails [] := .inl (List.forall_mem_nil _)

/-- Stripping a line shortens what trails its text. -/
theorem exists_rstrip {text trail : Bytes} (htext : TightLast text) (htrail : Trails trail) :
    ∃ rest, rstrip (text ++ trail) = text ++ rest ∧ Trails rest := by
  rcases htrail with hblank | ⟨pad, comment, hne, hpad, rfl⟩
  · exact ⟨[], by rw [rstrip, rdropWhile_append_blank htext hblank, List.append_nil], trails_nil⟩
  · refine ⟨pad ++ semicolon :: comment.rdropWhile isSpace, ?_, .inr ⟨_, _, hne, hpad, rfl⟩⟩
    rw [rstrip, ← List.append_assoc, rdropWhile_append_cons _ _ (by decide), List.append_assoc]

/-- A scan over a text and its trail ends at the comment or at the end of the line. -/
theorem exists_scan {chars text trail : Bytes} (hchars : ∀ c ∈ chars, isSpace c = false)
    (hfree : ∀ c ∈ text, c ∉ chars) (hbare : Bare text) (htight : TightLast text)
    (htrail : Trails trail) :
    ∃ before found, findCharsOrComment chars false (text ++ trail) = (before, found) ∧
      rstrip before = text ∧ ∀ c ∈ found.head?, c = semicolon := by
  have hpadded : ∀ {pad}, Blank pad →
      (∀ c ∈ text ++ pad, c ∉ chars) ∧ Bare (text ++ pad) ∧ rstrip (text ++ pad) = text := by
    intro pad hpad
    refine ⟨List.forall_mem_append.mpr ⟨hfree, ?_⟩, bare_append hbare (bare_of_blank hpad) ?_,
      rdropWhile_append_blank htight hpad⟩
    · intro c hc hmem
      exact absurd (hpad c hc) (by simp [hchars c hmem])
    · exact fun hhead => semicolon_not_mem_blank hpad (List.mem_of_mem_head? hhead)
  rcases htrail with hblank | ⟨pad, comment, hne, hpad, rfl⟩
  · obtain ⟨hfree, hbare, hstrip⟩ := hpadded hblank
    have hscan := @findCharsOrComment_eq chars (text ++ trail) [] hfree hbare nofun
    rw [List.append_nil] at hscan
    exact ⟨_, [], hscan, hstrip, nofun⟩
  · obtain ⟨hfree, hbare, hstrip⟩ := hpadded hpad
    have hlast : ∃ last ∈ (text ++ pad).getLast?, isSpace last = true := by
      rw [List.getLast?_append, List.getLast?_eq_some_getLast hne]
      exact ⟨_, rfl, hpad _ (List.getLast_mem hne)⟩
    have hstops : StopsAt chars (text ++ pad) (semicolon :: comment) := by
      intro c hc
      obtain rfl := Option.some.inj hc
      exact .inr ⟨rfl, hlast⟩
    have hscan := findCharsOrComment_eq hfree hbare hstops
    rw [List.append_assoc] at hscan
    refine ⟨_, _, hscan, hstrip, ?_⟩
    intro c hc
    exact (Option.some.inj hc).symm

theorem uncommented_append {text trail : Bytes} (hbare : Bare text) (htight : TightLast text)
    (htrail : Trails trail) : uncommented (text ++ trail) = text := by
  obtain ⟨before, found, hscan, hstrip, -⟩ :=
    exists_scan (List.forall_mem_nil _) (fun _ _ => List.not_mem_nil) hbare htight htrail
  rw [uncommented, hscan]
  exact hstrip

/-- Where a scan stops, the text in front ends with the white space in front of a comment. -/
theorem exists_text_trail {chars before found : Bytes}
    (hstops : StopsAt chars before found) (hother : ∀ c ∈ found.head?, c ∉ chars) :
    ∃ trail, before ++ found = rstrip before ++ trail ∧ Trails trail := by
  obtain ⟨pad, heq, hpad⟩ := exists_trail before
  refine ⟨pad ++ found, ?_, ?_⟩
  · rw [← List.append_assoc, rstrip, ← heq]
  cases found with
  | nil =>
      rw [List.append_nil]
      exact .inl hpad
  | cons c comment =>
      obtain ⟨rfl, last, hlast, hspace⟩ := (hstops c rfl).resolve_left (hother c rfl)
      refine .inr ⟨pad, comment, ?_, hpad, rfl⟩
      rintro rfl
      rw [List.append_nil] at heq
      rw [heq] at hlast
      exact absurd hspace (by simp [tightLast_rdropWhile before last hlast])

/-! ## The grammar -/

/-- A text that neither looks like a comment nor has one inside. -/
structure Word (text : Bytes) : Prop where
  head : TightHead text
  last : TightLast text
  bare : Bare text
  mark : ∀ c ∈ text.head?, c ≠ semicolon ∧ c ≠ hash

/-- What a line starts with, if it does not start a section and holds no separator. -/
structure Plain (text : Bytes) : Prop extends Word text where
  bracket : ∀ c ∈ text.head?, c ≠ bracket
  free : ∀ c ∈ text, c ∉ [equals, colon]

instance : DecidablePred Word := fun text =>
  decidable_of_iff (TightHead text ∧ TightLast text ∧ Bare text ∧
      text.head? ≠ some semicolon ∧ text.head? ≠ some hash) <| by
    constructor
    · rintro ⟨hhead, hlast, hbare, hsemicolon, hhash⟩
      refine ⟨hhead, hlast, hbare, ?_⟩
      rintro c hc
      exact ⟨fun heq => hsemicolon (heq ▸ hc), fun heq => hhash (heq ▸ hc)⟩
    · intro hword
      exact ⟨hword.head, hword.last, hword.bare, fun hc => (hword.mark _ hc).1 rfl,
        fun hc => (hword.mark _ hc).2 rfl⟩

instance : DecidablePred Plain := fun text =>
  decidable_of_iff (Word text ∧ text.head? ≠ some Ini.bracket ∧ equals ∉ text ∧ colon ∉ text) <| by
    constructor
    · rintro ⟨hword, hbracket, hequals, hcolon⟩
      refine ⟨hword, fun c hc heq => hbracket (heq ▸ hc), ?_⟩
      intro c hc hmem
      rcases List.mem_pair.mp hmem with rfl | rfl
      · exact hequals hc
      · exact hcolon hc
    · intro hplain
      exact ⟨hplain.toWord, fun hc => hplain.bracket _ hc rfl,
        fun hc => hplain.free _ hc List.mem_cons_self,
        fun hc => hplain.free _ hc (List.mem_cons_of_mem _ List.mem_cons_self)⟩

/-- The readings of a line, which may continue a value when it starts with white space. -/
inductive Reads (continues : Bool) : Bytes → Item → Prop
  | blank {line : Bytes} : Blank line → Reads continues line .nothing
  | comment {lead : Bytes} {c : UInt8} (rest : Bytes) : Blank lead → c = semicolon ∨ c = hash →
      Reads continues (lead ++ c :: rest) .nothing
  | continuation {lead text trail : Bytes} : continues = true → lead ≠ [] → Blank lead →
      text ≠ [] → Word text → Trails trail →
      Reads continues (lead ++ (text ++ trail)) (.continuation text)
  | header {lead title : Bytes} (rest : Bytes) : (continues = true → lead = []) → Blank lead →
      closing ∉ title → Bare title →
      Reads continues (lead ++ bracket :: (title ++ closing :: rest)) (.header title)
  | unclosed {lead text trail : Bytes} : (continues = true → lead = []) → Blank lead →
      closing ∉ text → Bare text → TightLast text → Trails trail →
      Reads continues (lead ++ bracket :: (text ++ trail)) .bad
  | entry {lead name pad gap value trail : Bytes} {separator : UInt8} :
      (continues = true → lead = []) → Blank lead → Plain name → Blank pad →
      (name = [] → pad = []) → separator ∈ [equals, colon] → Blank gap → TightHead value →
      TightLast value → Bare value → Trails trail → (value = [] → Blank trail) →
      Reads continues (lead ++ (name ++ (pad ++ separator :: (gap ++ (value ++ trail)))))
        (.entry name value)
  | inseparable {lead text trail : Bytes} : (continues = true → lead = []) → Blank lead →
      text ≠ [] → Plain text → Trails trail → Reads continues (lead ++ (text ++ trail)) .bad

/-! ## The scanner -/

def readSection (text : Bytes) : Item :=
  let (title, found) := findCharsOrComment [closing] false text
  if found.head? = some closing then .header title else .bad

def readPair (start : Bytes) : Item :=
  let (name, found) := findCharsOrComment [equals, colon] false start
  if found.head? = some equals ∨ found.head? = some colon then
    .entry (rstrip name) (uncommented (lskip found.tail))
  else .bad

def readStart (continues : Bool) : Bytes → Item
  | [] => .nothing
  | c :: rest =>
      if c = semicolon ∨ c = hash then .nothing
      else if continues then .continuation (uncommented (c :: rest))
      else if c = bracket then readSection rest
      else readPair (c :: rest)

def readLine (continues : Bool) (line : Bytes) : Item :=
  let stripped := rstrip line
  let start := lskip stripped
  readStart (continues && start.length < stripped.length) start

theorem readLine_of_blank (continues : Bool) {line : Bytes} (hline : Blank line) :
    readLine continues line = .nothing := by
  have hstrip : rstrip line = [] := List.rdropWhile_eq_nil_iff.mpr hline
  rw [readLine, hstrip]
  rfl

/-- White space in front is what makes a line a continuation. -/
theorem readLine_append (continues : Bool) {lead body : Bytes} (hlead : Blank lead)
    (hne : body ≠ []) (hbody : TightHead body) :
    readLine continues (lead ++ body) = readStart (continues && lead ≠ []) (rstrip body) := by
  obtain ⟨c, rest, rfl⟩ := List.exists_cons_of_ne_nil hne
  have hc := hbody c rfl
  have hstrip : rstrip (lead ++ c :: rest) = lead ++ c :: rstrip rest :=
    rdropWhile_append_cons lead rest hc
  have hrstrip : rstrip (c :: rest) = c :: rstrip rest := rdropWhile_append_cons [] rest hc
  have hstart : lskip (lead ++ c :: rstrip rest) = c :: rstrip rest :=
    dropWhile_blank_append hlead (tightHead_cons _ hc)
  have hmoved : (c :: rstrip rest).length < (lead ++ c :: rstrip rest).length ↔ lead ≠ [] := by
    rw [List.length_append, ← List.length_pos_iff]
    omega
  simp only [readLine, hstrip, hstart, hmoved, hrstrip]

/-- A line that does not continue a value is read from its start. -/
theorem readLine_append_of_not_continued {continues : Bool} {lead body : Bytes}
    (hfirst : continues = true → lead = []) (hlead : Blank lead) (hne : body ≠ [])
    (hbody : TightHead body) :
    readLine continues (lead ++ body) = readStart false (rstrip body) := by
  rw [readLine_append continues hlead hne hbody]
  cases continues with
  | false => rfl
  | true => rw [hfirst rfl]; rfl

theorem readStart_section (rest : Bytes) :
    readStart false (bracket :: rest) = readSection rest := by
  have hmark : ¬ (bracket = semicolon ∨ bracket = hash) := by decide
  rw [readStart, if_neg hmark, if_neg Bool.false_ne_true, if_pos rfl]

theorem readStart_pair {c : UInt8} (rest : Bytes) (hmark : c ≠ semicolon ∧ c ≠ hash)
    (hbracket : c ≠ bracket) : readStart false (c :: rest) = readPair (c :: rest) := by
  rw [readStart, if_neg (not_or.mpr hmark), if_neg Bool.false_ne_true, if_neg hbracket]

theorem readStart_of_plain {text : Bytes} (rest : Bytes) (htext : Plain text) (hne : text ≠ []) :
    readStart false (text ++ rest) = readPair (text ++ rest) := by
  obtain ⟨c, text, rfl⟩ := List.exists_cons_of_ne_nil hne
  exact readStart_pair _ (htext.mark c rfl) (htext.bracket c rfl)

theorem readSection_closed {title : Bytes} (rest : Bytes) (hfree : closing ∉ title)
    (hbare : Bare title) : readSection (title ++ closing :: rest) = .header title := by
  have hnone : ∀ c ∈ title, c ∉ [closing] := by
    intro c hc hmem
    exact hfree (List.mem_singleton.mp hmem ▸ hc)
  rw [readSection, findCharsOrComment_eq hnone hbare (stopsAt_of_mem _ _ List.mem_cons_self)]
  exact if_pos rfl

theorem readSection_unclosed {text trail : Bytes} (hfree : closing ∉ text) (hbare : Bare text)
    (htight : TightLast text) (htrail : Trails trail) : readSection (text ++ trail) = .bad := by
  have hnone : ∀ c ∈ text, c ∉ [closing] := by
    intro c hc hmem
    exact hfree (List.mem_singleton.mp hmem ▸ hc)
  obtain ⟨before, found, hscan, -, hfound⟩ :=
    exists_scan (List.forall_mem_singleton.mpr (by decide)) hnone hbare htight htrail
  rw [readSection, hscan]
  apply if_neg
  intro hclosing
  exact absurd (hfound _ hclosing) (by decide)

theorem isSpace_separator {c : UInt8} (hc : c ∈ [equals, colon]) : isSpace c = false := by
  rcases List.mem_pair.mp hc with rfl | rfl
  · decide
  · decide

theorem readPair_inseparable {text trail : Bytes} (htext : Plain text) (htrail : Trails trail) :
    readPair (text ++ trail) = .bad := by
  obtain ⟨before, found, hscan, -, hfound⟩ :=
    exists_scan (fun _ => isSpace_separator) htext.free htext.bare htext.last htrail
  rw [readPair, hscan]
  apply if_neg
  rintro (hequals | hcolon)
  · exact absurd (hfound _ hequals) (by decide)
  · exact absurd (hfound _ hcolon) (by decide)

/-- A name or, where it is empty, the separator is the start of its line. -/
theorem start_of_name {name pad : Bytes} {separator : UInt8} (rest : Bytes) (hname : Plain name)
    (hnone : name = [] → pad = []) (hseparator : separator ∈ [equals, colon]) :
    TightHead (name ++ (pad ++ separator :: rest)) ∧
      readStart false (name ++ (pad ++ separator :: rest)) =
        readPair (name ++ (pad ++ separator :: rest)) := by
  by_cases hne : name = []
  · have hother : (separator ≠ semicolon ∧ separator ≠ hash) ∧ separator ≠ bracket := by
      rcases List.mem_pair.mp hseparator with rfl | rfl
      · decide
      · decide
    obtain ⟨hmark, hbracket⟩ := hother
    rw [hnone hne, hne]
    exact ⟨tightHead_cons _ (isSpace_separator hseparator), readStart_pair rest hmark hbracket⟩
  · exact ⟨hname.head.append hne _, readStart_of_plain _ hname hne⟩

/-- The first separator ends the name, which is stripped. -/
theorem readPair_entry {name pad rest : Bytes} {separator : UInt8} (hname : Plain name)
    (hpad : Blank pad) (hseparator : separator ∈ [equals, colon]) :
    readPair (name ++ (pad ++ separator :: rest)) = .entry name (uncommented (lskip rest)) := by
  have hfree : ∀ c ∈ name ++ pad, c ∉ [equals, colon] := by
    refine List.forall_mem_append.mpr ⟨hname.free, ?_⟩
    intro c hc hmem
    exact absurd (hpad c hc) (by simp [isSpace_separator hmem])
  have hbare : Bare (name ++ pad) := by
    apply bare_append hname.bare (bare_of_blank hpad)
    exact fun hhead => semicolon_not_mem_blank hpad (List.mem_of_mem_head? hhead)
  have hstrip : rstrip (name ++ pad) = name := rdropWhile_append_blank hname.last hpad
  have hfound : (separator :: rest).head? = some equals ∨
      (separator :: rest).head? = some colon := by
    simpa using hseparator
  rw [readPair, ← List.append_assoc,
    findCharsOrComment_eq hfree hbare (stopsAt_of_mem _ _ hseparator)]
  exact (if_pos hfound).trans (by rw [hstrip]; rfl)

/-- The value starts behind the white space and ends in front of what trails it. -/
theorem uncommented_lskip {gap value trail : Bytes} (hgap : Blank gap) (hhead : TightHead value)
    (hlast : TightLast value) (hbare : Bare value) (htrail : Trails trail)
    (hempty : value = [] → Blank trail) :
    uncommented (lskip (rstrip (gap ++ (value ++ trail)))) = value := by
  by_cases hvalue : value = []
  · have hblank : Blank (gap ++ (value ++ trail)) := by
      rw [hvalue, List.nil_append]
      exact hgap.append (hempty hvalue)
    have hstrip : rstrip (gap ++ (value ++ trail)) = [] := List.rdropWhile_eq_nil_iff.mpr hblank
    rw [hstrip, hvalue]
    rfl
  · obtain ⟨rest, hstrip, hrest⟩ := exists_rstrip (hlast.append hvalue gap) htrail
    have hskip : lskip (gap ++ (value ++ rest)) = value ++ rest :=
      dropWhile_blank_append hgap (hhead.append hvalue rest)
    rw [← List.append_assoc, hstrip, List.append_assoc, hskip,
      uncommented_append hbare hlast hrest]

/-! ## Every line has one reading -/

/-- The scanner finds what the grammar reads. -/
theorem Reads.readLine_eq {continues : Bool} {line : Bytes} {item : Item}
    (hreads : Reads continues line item) : readLine continues line = item := by
  cases hreads with
  | blank hline => exact readLine_of_blank continues hline
  | @comment lead c rest hlead hmark =>
      have hc : isSpace c = false := by
        rcases hmark with rfl | rfl
        all_goals decide
      have hstrip : rstrip (c :: rest) = c :: rstrip rest := rdropWhile_append_cons [] rest hc
      rw [readLine_append continues hlead (List.cons_ne_nil _ _) (tightHead_cons _ hc), hstrip,
        readStart, if_pos hmark]
  | @continuation lead text trail hcontinues hne hlead htext hword htrail =>
      obtain ⟨rest, hstrip, hrest⟩ := exists_rstrip hword.last htrail
      obtain ⟨c, more, rfl⟩ := List.exists_cons_of_ne_nil htext
      have hmoved : (continues && lead ≠ []) = true := by simp [hcontinues, hne]
      rw [readLine_append continues hlead (by simp) (hword.head.append htext trail), hstrip,
        hmoved, List.cons_append, readStart, if_neg (not_or.mpr (hword.mark c rfl)), if_pos rfl,
        ← List.cons_append, uncommented_append hword.bare hword.last hrest]
  | @header lead title rest hfirst hlead hfree hbare =>
      have hstrip : rstrip (bracket :: (title ++ closing :: rest)) =
          bracket :: (title ++ closing :: rstrip rest) :=
        rdropWhile_append_cons (bracket :: title) rest (by decide)
      rw [readLine_append_of_not_continued hfirst hlead (List.cons_ne_nil _ _)
        (tightHead_cons _ (by decide)), hstrip, readStart_section, readSection_closed _ hfree hbare]
  | @unclosed lead text trail hfirst hlead hfree hbare htight htrail =>
      have hlast : TightLast (bracket :: text) := by
        by_cases hne : text = []
        · subst hne
          intro last hlast
          obtain rfl := Option.some.inj hlast
          decide
        · exact htight.append hne [bracket]
      obtain ⟨rest, hstrip, hrest⟩ := exists_rstrip hlast htrail
      rw [readLine_append_of_not_continued hfirst hlead (List.cons_ne_nil _ _)
        (tightHead_cons _ (by decide)), ← List.cons_append, hstrip, List.cons_append,
        readStart_section, readSection_unclosed hfree hbare htight hrest]
  | @entry lead name pad gap value trail separator hfirst hlead hname hpad hnone hseparator hgap
      hhead hlast hbare htrail hempty =>
      have hstrip : rstrip (name ++ (pad ++ separator :: (gap ++ (value ++ trail)))) =
          name ++ (pad ++ separator :: rstrip (gap ++ (value ++ trail))) := by
        rw [rstrip, ← List.append_assoc, rdropWhile_append_cons _ _ (isSpace_separator hseparator),
          List.append_assoc]
        rfl
      rw [readLine_append_of_not_continued hfirst hlead (by simp)
        (start_of_name _ hname hnone hseparator).1, hstrip,
        (start_of_name _ hname hnone hseparator).2, readPair_entry hname hpad hseparator,
        uncommented_lskip hgap hhead hlast hbare htrail hempty]
  | @inseparable lead text trail hfirst hlead hne htext htrail =>
      obtain ⟨rest, hstrip, hrest⟩ := exists_rstrip htext.last htrail
      rw [readLine_append_of_not_continued hfirst hlead (by simp [hne])
        (htext.head.append hne trail), hstrip, readStart_of_plain rest htext hne,
        readPair_inseparable htext hrest]

/-- What stands behind a separator is a value and what trails it. -/
theorem exists_value (text : Bytes) :
    ∃ gap value trail, text = gap ++ (value ++ trail) ∧ Blank gap ∧ TightHead value ∧
      TightLast value ∧ Bare value ∧ Trails trail ∧ (value = [] → Blank trail) := by
  obtain ⟨gap, hgap, hblank⟩ := exists_lead text
  have hhead := tightHead_dropWhile text
  obtain ⟨before, found, hfound, -, hbare, hstops⟩ := exists_found [] (text.dropWhile isSpace)
  obtain ⟨trail, hsplit, htrail⟩ := exists_text_trail hstops fun _ _ => List.not_mem_nil
  have heq : text.dropWhile isSpace = rstrip before ++ trail := hfound.trans hsplit
  obtain ⟨pad, hbefore, -⟩ := exists_trail before
  refine ⟨gap, rstrip before, trail, by rw [← heq]; exact hgap, hblank, ?_,
    tightLast_rdropWhile before, ?_, htrail, ?_⟩
  · by_cases hnone : rstrip before = []
    · rw [hnone]
      exact nofun
    · intro c hc
      apply hhead c
      rw [heq, List.head?_append_of_ne_nil _ hnone]
      exact hc
  · rw [hbefore] at hbare
    exact hbare.left
  · intro hnone
    rcases htrail with htrail | ⟨pad, comment, hne, hpad, rfl⟩
    · exact htrail
    -- a comment would start behind the white space that the value starts behind
    · obtain ⟨c, more, rfl⟩ := List.exists_cons_of_ne_nil hne
      rw [heq, hnone] at hhead
      exact absurd (hhead c rfl) (by simp [hpad c List.mem_cons_self])

/-- What a line starts with is a word, however much of the line it is. -/
theorem word_of_start {c : UInt8} {rest text trail : Bytes} (hc : isSpace c = false)
    (hmark : ¬ (c = semicolon ∨ c = hash)) (heq : c :: rest = text ++ trail)
    (hlast : TightLast text) (hbare : Bare text) : Word text := by
  have hfirst : ∀ first ∈ text.head?, first = c := by
    intro first hfirst
    have hhead := congrArg List.head? heq
    rw [List.head?_append, Option.mem_def.mp hfirst] at hhead
    exact (Option.some.inj hhead).symm
  refine ⟨?_, hlast, hbare, ?_⟩
  · intro first hmem
    rw [hfirst first hmem]
    exact hc
  · intro first hmem
    rw [hfirst first hmem]
    exact not_or.mp hmark

theorem ne_nil_of_trails {c : UInt8} {rest text trail : Bytes} (hc : isSpace c = false)
    (heq : c :: rest = text ++ trail) (htrail : Trails trail) : text ≠ [] := by
  rintro rfl
  rcases htrail with hblank | ⟨pad, comment, hne, hpad, rfl⟩
  · rw [List.nil_append] at heq
    exact absurd (hblank c (heq ▸ List.mem_cons_self)) (by simp [hc])
  · obtain ⟨d, more, rfl⟩ := List.exists_cons_of_ne_nil hne
    obtain ⟨rfl, -⟩ := List.cons.inj heq
    exact absurd (hpad c List.mem_cons_self) (by simp [hc])

section Totality

variable {continues : Bool} {lead : Bytes} {c : UInt8} {rest : Bytes}

theorem exists_reads_continuation (hcontinues : continues = true) (hne : lead ≠ [])
    (hlead : Blank lead) (hc : isSpace c = false) (hmark : ¬ (c = semicolon ∨ c = hash)) :
    ∃ item, Reads continues (lead ++ c :: rest) item := by
  obtain ⟨before, found, hfound, -, hbare, hstops⟩ := exists_found [] (c :: rest)
  obtain ⟨trail, hsplit, htrail⟩ := exists_text_trail hstops fun _ _ => List.not_mem_nil
  obtain ⟨pad, hbefore, -⟩ := exists_trail before
  rw [hbefore] at hbare
  have heq : c :: rest = rstrip before ++ trail := hfound.trans hsplit
  have hword := word_of_start hc hmark heq (tightLast_rdropWhile before) hbare.left
  have htext := ne_nil_of_trails hc heq htrail
  rw [heq]
  exact ⟨_, .continuation hcontinues hne hlead htext hword htrail⟩

theorem exists_reads_section (hfirst : continues = true → lead = []) (hlead : Blank lead) :
    ∃ item, Reads continues (lead ++ bracket :: rest) item := by
  obtain ⟨before, found, rfl, hfree, hbare, hstops⟩ := exists_found [closing] rest
  have hnone : closing ∉ before := fun hmem => hfree _ hmem List.mem_cons_self
  by_cases hclosed : found.head? = some closing
  · obtain ⟨more, rfl⟩ := List.head?_eq_some_iff.mp hclosed
    exact ⟨_, .header more hfirst hlead hnone hbare⟩
  · obtain ⟨trail, hsplit, htrail⟩ := exists_text_trail hstops (by
      intro first hhead hmem
      exact hclosed (List.mem_singleton.mp hmem ▸ hhead))
    obtain ⟨pad, hbefore, -⟩ := exists_trail before
    rw [hbefore] at hbare hnone
    rw [hsplit]
    exact ⟨_, .unclosed hfirst hlead (fun hmem => hnone (List.mem_append_left _ hmem))
      hbare.left (tightLast_rdropWhile before) htrail⟩

theorem exists_reads_pair (hfirst : continues = true → lead = []) (hlead : Blank lead)
    (hc : isSpace c = false) (hmark : ¬ (c = semicolon ∨ c = hash)) (hbracket : c ≠ bracket) :
    ∃ item, Reads continues (lead ++ c :: rest) item := by
  obtain ⟨before, found, heq, hfree, hbare, hstops⟩ := exists_found [equals, colon] (c :: rest)
  obtain ⟨pad, hbefore, hpad⟩ := exists_trail before
  have hsplit : c :: rest = rstrip before ++ (pad ++ found) := by
    rw [← List.append_assoc, rstrip, ← hbefore]
    exact heq
  have hname : Plain (rstrip before) := by
    rw [hbefore] at hbare hfree
    refine ⟨word_of_start hc hmark hsplit (tightLast_rdropWhile before) hbare.left, ?_,
      fun d hd => hfree d (List.mem_append_left pad hd)⟩
    intro d hd
    have hhead := congrArg List.head? hsplit
    rw [List.head?_append, Option.mem_def.mp hd] at hhead
    exact Option.some.inj hhead ▸ hbracket
  by_cases hstop : ∃ separator ∈ found.head?, separator ∈ [equals, colon]
  · obtain ⟨separator, hhead, hseparator⟩ := hstop
    obtain ⟨after, rfl⟩ := List.head?_eq_some_iff.mp hhead
    obtain ⟨gap, value, trail, rfl, hgap, htight, hlast, hvalue, htrail, hempty⟩ :=
      exists_value after
    have hnone : rstrip before = [] → pad = [] := by
      intro hnil
      rw [hnil, List.nil_append] at hsplit
      cases pad with
      | nil => rfl
      | cons d more =>
          obtain ⟨rfl, -⟩ := List.cons.inj hsplit
          exact absurd (hpad c List.mem_cons_self) (by simp [hc])
    rw [hsplit]
    exact ⟨_, .entry hfirst hlead hname hpad hnone hseparator hgap htight hlast hvalue htrail
      hempty⟩
  · obtain ⟨trail, htext, htrail⟩ := exists_text_trail hstops fun d hd hmem =>
      hstop ⟨d, hd, hmem⟩
    rw [heq, htext]
    exact ⟨_, .inseparable hfirst hlead (ne_nil_of_trails hc (heq.trans htext) htrail) hname
      htrail⟩

end Totality

theorem exists_reads (continues : Bool) (line : Bytes) : ∃ item, Reads continues line item := by
  obtain ⟨lead, hline, hlead⟩ := exists_lead line
  have hhead := tightHead_dropWhile line
  cases hbody : line.dropWhile isSpace with
  | nil =>
      rw [hbody, List.append_nil] at hline
      exact ⟨_, .blank (hline ▸ hlead)⟩
  | cons c rest =>
      rw [hbody] at hline hhead
      have hc := hhead c rfl
      rw [hline]
      by_cases hmark : c = semicolon ∨ c = hash
      · exact ⟨_, .comment rest hlead hmark⟩
      by_cases hmoved : continues = true ∧ lead ≠ []
      · exact exists_reads_continuation hmoved.1 hmoved.2 hlead hc hmark
      have hfirst : continues = true → lead = [] := by
        intro hcontinues
        by_contra hne
        exact hmoved ⟨hcontinues, hne⟩
      by_cases hbracket : c = bracket
      · exact hbracket ▸ exists_reads_section hfirst hlead
      · exact exists_reads_pair hfirst hlead hc hmark hbracket

/-- The scanner reads every line as the grammar does. -/
theorem readLine_eq_iff {continues : Bool} {line : Bytes} {item : Item} :
    readLine continues line = item ↔ Reads continues line item := by
  constructor
  · intro heq
    obtain ⟨found, hfound⟩ := exists_reads continues line
    rwa [← heq, hfound.readLine_eq]
  · intro hreads
    exact hreads.readLine_eq

end NyanSD.Ini
