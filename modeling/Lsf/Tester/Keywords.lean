import Mathlib.Data.Finset.Dedup
import Mathlib.Data.Finset.Filter
import Mathlib.Data.List.Chain

/-!
# Words of a query

The scanner of `tester/keyword_coverage.py`, one iteration of its loop a `step`: strings, quoted identifiers and
comments are skipped, and every other word is given in capitals. A text of lexical segments has the words of its
segments, in their order, and on any text whatsoever every iteration gets further and none leaves the text
(`sqlWords_spec`).
-/

namespace Lsf.Tester

/-! ## The scanner -/

/-- `[A-Za-z_]`. -/
def isWordStart (c : Char) : Bool := c.isAlpha || c == '_'

/-- `[A-Za-z0-9_]`. -/
def isWordChar (c : Char) : Bool := c.isAlphanum || c == '_'

/-- The quotes of strings and identifiers; the last two are the double quote and the accent. -/
def quotes : List Char := ['\'', Char.ofNat 34, Char.ofNat 96]

/-- The end of a line comment. -/
def lineEnd : List Char → Nat → Nat
  | [], i => i
  | c :: rest, i => if c = '\r' ∨ c = '\n' then i else lineEnd rest (i + 1)

/-- The end of a block comment, before its last two characters. -/
def blockEnd : List Char → Nat → Nat
  | c :: d :: rest, i => if c = '*' ∧ d = '/' then i else blockEnd (d :: rest) (i + 1)
  | _, i => i

/-- The end of what is quoted, after the last quote. -/
def quoteEnd (quote : Char) : List Char → Nat → Nat
  | [], i => i
  | [_], i => i + 1
  | c :: d :: rest, i =>
    if c = quote then if d = quote then quoteEnd quote rest (i + 2) else i + 1
    else quoteEnd quote (d :: rest) (i + 1)

/-- The closing bracket. -/
def bracketEnd : List Char → Nat → Nat
  | [], i => i
  | c :: rest, i => if c = ']' then i else bracketEnd rest (i + 1)

/-- One iteration of `sql_words` at the index `i`: the word that it yields, and the next index. -/
def step (sql : List Char) (i : Nat) : Option (List Char) × Nat :=
  match sql.drop i with
  | [] => (none, i)
  | ch :: rest =>
    if ch = '-' ∧ rest.head? = some '-' then (none, lineEnd rest.tail (i + 2))
    else if ch = '/' ∧ rest.head? = some '*' then (none, min (blockEnd rest.tail (i + 2) + 2) sql.length)
    else if ch ∈ quotes then (none, quoteEnd ch rest (i + 1))
    else if ch = '[' then (none, min (bracketEnd rest (i + 1) + 1) sql.length)
    else if isWordStart ch then
      let word := ch :: rest.takeWhile isWordChar
      (some (word.map Char.toUpper), i + word.length)
    else (none, i + 1)

theorem lineEnd_bounds (s : List Char) (i : Nat) : i ≤ lineEnd s i ∧ lineEnd s i ≤ i + s.length := by
  induction s generalizing i with
  | nil => exact ⟨le_rfl, le_rfl⟩
  | cons c s ih =>
    rw [lineEnd, List.length_cons]
    split
    · omega
    · have := ih (i + 1)
      omega

theorem bracketEnd_le (s : List Char) (i : Nat) : i ≤ bracketEnd s i := by
  induction s generalizing i with
  | nil => exact le_rfl
  | cons c s ih =>
    rw [bracketEnd]
    split
    · exact le_rfl
    · exact (Nat.le_succ i).trans (ih (i + 1))

theorem blockEnd_le (s : List Char) (i : Nat) : i ≤ blockEnd s i := by
  induction s, i using blockEnd.induct with
  | case1 c d rest i h => rw [blockEnd, if_pos h]
  | case2 c d rest i h ih =>
    rw [blockEnd, if_neg h]
    omega
  | case3 s i hs =>
    rw [blockEnd]
    exact hs

theorem quoteEnd_bounds (quote : Char) (s : List Char) (i : Nat) :
    i ≤ quoteEnd quote s i ∧ quoteEnd quote s i ≤ i + s.length := by
  induction s, i using quoteEnd.induct quote with
  | case1 i => exact ⟨le_rfl, le_rfl⟩
  | case2 _ i => exact ⟨Nat.le_succ i, le_rfl⟩
  | case3 rest i ih =>
    rw [quoteEnd, if_pos rfl, if_pos rfl, List.length_cons, List.length_cons]
    omega
  | case4 d rest i hd =>
    rw [quoteEnd, if_pos rfl, if_neg hd, List.length_cons, List.length_cons]
    omega
  | case5 c d rest i hc ih =>
    rw [quoteEnd, if_neg hc, List.length_cons]
    omega

/-- **Every iteration gets further**, and none leaves the text. -/
theorem step_bounds {sql : List Char} {i : Nat} (hi : i < sql.length) :
    i < (step sql i).2 ∧ (step sql i).2 ≤ sql.length := by
  obtain ⟨ch, rest, hdrop⟩ := List.exists_cons_of_length_pos (l := sql.drop i) (by rw [List.length_drop]; omega)
  have hlen := congrArg List.length hdrop
  rw [List.length_drop, List.length_cons] at hlen
  have htail : rest.head? ≠ none → rest.tail.length + 1 = rest.length := by
    cases rest with
    | nil => exact fun h => (h rfl).elim
    | cons _ _ => exact fun _ => rfl
  unfold step
  rw [hdrop]
  dsimp only
  split
  · rename_i hline
    have hbounds := lineEnd_bounds rest.tail (i + 2)
    have := htail (by rw [hline.2]; exact Option.some_ne_none _)
    dsimp only
    omega
  split
  · rename_i hblock
    have hle := blockEnd_le rest.tail (i + 2)
    have := htail (by rw [hblock.2]; exact Option.some_ne_none _)
    dsimp only
    omega
  split
  · have hbounds := quoteEnd_bounds ch rest (i + 1)
    dsimp only
    omega
  split
  · have hle := bracketEnd_le rest (i + 1)
    dsimp only
    omega
  split
  · have hle : (rest.takeWhile isWordChar).length ≤ rest.length := (List.takeWhile_sublist _).length_le
    rw [List.length_cons]
    omega
  · omega

theorem step_length (sql : List Char) : step sql sql.length = (none, sql.length) := by
  unfold step
  rw [List.drop_length]

/-- The loop of `sql_words` from the index `i` on. -/
def sqlWordsFrom (sql : List Char) (i : Nat) : List (List Char) :=
  if i < sql.length then (step sql i).1.toList ++ sqlWordsFrom sql (step sql i).2 else []
termination_by sql.length - i
decreasing_by
  rename_i hi
  have := step_bounds hi
  omega

/-- `sql_words`. -/
def sqlWords (sql : List Char) : List (List Char) := sqlWordsFrom sql 0

/-- `keywords_in_query`. -/
def keywordsInQuery (keywords : Finset (List Char)) (sql : List Char) : Finset (List Char) :=
  (sqlWords sql).toFinset.filter (· ∈ keywords)

/-! ## Segments -/

/-- White space. -/
def spaces : List Char := [' ', '\t', '\n', '\r', Char.ofNat 11, Char.ofNat 12]

/-- A character that is a segment of its own: none that begins a word, a quotation or a comment. -/
def isPlain (c : Char) : Bool := !isWordStart c && c ∉ quotes && c != '[' && c != '-' && c != '/'

/-- The text of what is quoted, with inner quotes doubled. -/
def escape (quote : Char) (content : List Char) : List Char :=
  content.flatMap fun c => if c = quote then [c, c] else [c]

/-- A lexical segment. -/
inductive Segment where
  | word (first : Char) (others : List Char) (hfirst : isWordStart first) (hothers : ∀ c ∈ others, isWordChar c)
  | space (text : List Char) (hne : text ≠ []) (htext : ∀ c ∈ text, c ∈ spaces)
  | quoted (quote : Char) (content : List Char) (hquote : quote ∈ quotes)
  | bracketed (content : List Char) (hcontent : ']' ∉ content)
  | line (content : List Char) (hcontent : ∀ c ∈ content, c ≠ '\r' ∧ c ≠ '\n')
  | block (body : List Char) (hbody : ¬['*', '/'] <:+: body)
  | other (c : Char) (hc : isPlain c)

namespace Segment

def text : Segment → List Char
  | word first others _ _ => first :: others
  | space text _ _ => text
  | quoted quote content _ => quote :: (escape quote content ++ [quote])
  | bracketed content _ => '[' :: (content ++ [']'])
  | line content _ => '-' :: '-' :: (content ++ ['\n'])
  | block body _ => '/' :: '*' :: (body ++ ['*', '/'])
  | other c _ => [c]

/-- The word in capitals. -/
def upper : Segment → Option (List Char)
  | word first others _ _ => some ((first :: others).map Char.toUpper)
  | _ => none

/-- A word is not followed by a word or a digit. -/
def Apart : Segment → Segment → Prop
  | word .., word .. => False
  | word .., other c _ => ¬c.isDigit
  | _, _ => True

end Segment

/-- The text of segments. -/
def textOf (segments : List Segment) : List Char := segments.flatMap Segment.text

/-- The words of segments in capitals. -/
def wordsOf (segments : List Segment) : List (List Char) := segments.filterMap Segment.upper

/-- No word is directly followed by a word or a digit. -/
def Separated (segments : List Segment) : Prop := segments.IsChain Segment.Apart

/-! ## Characters -/

theorem isPlain_of_mem_spaces {c : Char} (h : c ∈ spaces) : isPlain c :=
  List.all_eq_true.1 (rfl : spaces.all isPlain = true) c h

theorem not_isWordChar_of_mem_spaces {c : Char} (h : c ∈ spaces) : ¬isWordChar c :=
  by simpa using List.all_eq_true.1 (rfl : spaces.all (!isWordChar ·) = true) c h

theorem not_isWordChar_of_mem_quotes {c : Char} (h : c ∈ quotes) : ¬isWordChar c :=
  by simpa using List.all_eq_true.1 (rfl : quotes.all (!isWordChar ·) = true) c h

theorem isWordChar_of_isWordStart {c : Char} (h : isWordStart c) : isWordChar c := by
  unfold isWordStart at h
  unfold isWordChar Char.isAlphanum
  simp only [Bool.or_eq_true] at h ⊢
  exact h.imp_left .inl

/-- A word begins with no character of another segment. -/
theorem isWordStart_ne {c d : Char} (h : isWordStart c) (hd : isWordStart d = false) : c ≠ d := by
  rintro rfl
  exact nomatch h.symm.trans hd

theorem isPlain_iff {c : Char} :
    isPlain c ↔ isWordStart c = false ∧ c ∉ quotes ∧ c ≠ '[' ∧ c ≠ '-' ∧ c ≠ '/' := by
  simp [isPlain, and_assoc]

namespace Segment

/-- Every segment has a first character, which is a quote in a quotation only. -/
theorem exists_text_eq (segment : Segment) : ∃ c rest, segment.text = c :: rest ∧
    (c ∈ quotes → ∃ content h, segment = quoted c content h) := by
  have hne : ∀ {c : Char} {P : Prop}, c ∉ quotes → c ∈ quotes → P := fun hc h => (hc h).elim
  cases segment with
  | word first others hfirst _ =>
    exact ⟨first, others, rfl, hne fun h => not_isWordChar_of_mem_quotes h (isWordChar_of_isWordStart hfirst)⟩
  | space text htext hspaces =>
    obtain ⟨c, rest, rfl⟩ := List.exists_cons_of_ne_nil htext
    exact ⟨c, rest, rfl, hne (isPlain_iff.1 (isPlain_of_mem_spaces (hspaces c List.mem_cons_self))).2.1⟩
  | quoted quote content h => exact ⟨quote, _, rfl, fun _ => ⟨content, h, rfl⟩⟩
  | bracketed content _ => exact ⟨'[', _, rfl, hne (by decide)⟩
  | line content _ => exact ⟨'-', _, rfl, hne (by decide)⟩
  | block body _ => exact ⟨'/', _, rfl, hne (by decide)⟩
  | other c hc => exact ⟨c, [], rfl, hne (isPlain_iff.1 hc).2.1⟩

/-- What follows a word does not continue it. -/
theorem Apart.not_isWordChar {first : Char} {others : List Char} {hfirst hothers} {segment : Segment}
    (h : Apart (word first others hfirst hothers) segment) {c : Char} {rest : List Char}
    (htext : segment.text = c :: rest) : ¬isWordChar c := by
  cases segment with
  | word => exact h.elim
  | space text hne hspaces =>
    exact not_isWordChar_of_mem_spaces (hspaces c (by rw [show text = c :: rest from htext]; exact List.mem_cons_self))
  | quoted quote content hquote =>
    cases htext
    exact not_isWordChar_of_mem_quotes hquote
  | bracketed | line | block =>
    cases htext
    decide
  | other d hd =>
    cases htext
    have hstart := (isPlain_iff.1 hd).1
    have hdigit : ¬c.isDigit := h
    unfold isWordStart at hstart
    unfold isWordChar Char.isAlphanum
    simp only [Bool.or_eq_false_iff] at hstart
    simp [hstart.1, hstart.2, hdigit]

end Segment

/-! ## One segment -/

theorem lineEnd_append {content : List Char} (h : ∀ c ∈ content, c ≠ '\r' ∧ c ≠ '\n') (rest : List Char) (i : Nat) :
    lineEnd (content ++ '\n' :: rest) i = i + content.length := by
  induction content generalizing i with
  | nil =>
    rw [List.nil_append, lineEnd, if_pos (.inr rfl)]
    rfl
  | cons c content ih =>
    have hc := h c List.mem_cons_self
    rw [List.cons_append, lineEnd, if_neg (not_or.2 hc), ih (fun c hc => h c (List.mem_cons_of_mem _ hc)),
      List.length_cons]
    omega

theorem bracketEnd_append {content : List Char} (h : ']' ∉ content) (rest : List Char) (i : Nat) :
    bracketEnd (content ++ ']' :: rest) i = i + content.length := by
  induction content generalizing i with
  | nil =>
    rw [List.nil_append, bracketEnd, if_pos rfl]
    rfl
  | cons c content ih =>
    rw [List.mem_cons, not_or] at h
    rw [List.cons_append, bracketEnd, if_neg (Ne.symm h.1), ih h.2, List.length_cons]
    omega

/-- A block comment ends where it is closed first; its body may end with a star. -/
theorem blockEnd_append {body : List Char} (h : ¬['*', '/'] <:+: body) (rest : List Char) (i : Nat) :
    blockEnd (body ++ '*' :: '/' :: rest) i = i + body.length := by
  induction body generalizing i with
  | nil =>
    rw [List.nil_append, blockEnd, if_pos ⟨rfl, rfl⟩]
    rfl
  | cons c body ih =>
    have hbody : ¬['*', '/'] <:+: body := fun hsub => h (hsub.trans (List.suffix_cons c body).isInfix)
    obtain ⟨d, tail, htail⟩ : ∃ d tail, body ++ '*' :: '/' :: rest = d :: tail :=
      List.exists_cons_of_ne_nil (by simp)
    have hopen : ¬(c = '*' ∧ d = '/') := by
      rintro ⟨rfl, rfl⟩
      cases body with
      | nil => cases htail
      | cons e body =>
        cases htail
        exact h ⟨[], body, rfl⟩
    rw [List.cons_append, htail, blockEnd, if_neg hopen, ← htail, ih hbody, List.length_cons]
    omega

/-- Doubled quotes do not end a quotation. -/
theorem quoteEnd_escape (quote : Char) (content rest : List Char) (i : Nat) :
    quoteEnd quote (escape quote content ++ quote :: rest) i =
      quoteEnd quote (quote :: rest) (i + (escape quote content).length) := by
  induction content generalizing i with
  | nil => rfl
  | cons c content ih =>
    have hescape : escape quote (c :: content) = (if c = quote then [c, c] else [c]) ++ escape quote content :=
      List.flatMap_cons
    rw [hescape]
    by_cases hc : c = quote
    · rw [if_pos hc, hc, List.append_assoc]
      show quoteEnd quote (quote :: quote :: (escape quote content ++ quote :: rest)) i = _
      rw [quoteEnd, if_pos rfl, if_pos rfl, ih]
      congr 1
      simp
      omega
    · rw [if_neg hc, List.append_assoc]
      obtain ⟨d, tail, htail⟩ : ∃ d tail, escape quote content ++ quote :: rest = d :: tail :=
        List.exists_cons_of_ne_nil (by simp)
      rw [htail, List.singleton_append, quoteEnd, if_neg hc, ← htail, ih]
      congr 1
      simp
      omega

/-! ## One iteration -/

section Step

variable {rest : List Char} {c : Char}

theorem step_append (front s : List Char) : step (front ++ s) front.length = match s with
    | [] => (none, front.length)
    | ch :: rest =>
      if ch = '-' ∧ rest.head? = some '-' then (none, lineEnd rest.tail (front.length + 2))
      else if ch = '/' ∧ rest.head? = some '*' then
        (none, min (blockEnd rest.tail (front.length + 2) + 2) (front ++ s).length)
      else if ch ∈ quotes then (none, quoteEnd ch rest (front.length + 1))
      else if ch = '[' then (none, min (bracketEnd rest (front.length + 1) + 1) (front ++ s).length)
      else if isWordStart ch then (some ((ch :: rest.takeWhile isWordChar).map Char.toUpper),
        front.length + (ch :: rest.takeWhile isWordChar).length)
      else (none, front.length + 1) := by
  unfold step
  rw [List.drop_left]

theorem step_plain (front : List Char) (hc : isPlain c) :
    step (front ++ c :: rest) front.length = (none, front.length + 1) := by
  obtain ⟨hstart, hquote, hbracket, hminus, hslash⟩ := isPlain_iff.1 hc
  rw [step_append]
  dsimp only
  rw [if_neg fun h => hminus h.1, if_neg fun h => hslash h.1, if_neg hquote, if_neg hbracket,
    if_neg (Bool.eq_false_iff.1 hstart)]

theorem step_word (front : List Char) {others : List Char} (hc : isWordStart c) (hothers : ∀ c ∈ others, isWordChar c)
    (hrest : ∀ d ∈ rest.head?, ¬isWordChar d) : step (front ++ c :: (others ++ rest)) front.length =
      (some ((c :: others).map Char.toUpper), front.length + (c :: others).length) := by
  have htake : (others ++ rest).takeWhile isWordChar = others := by
    rw [List.takeWhile_append_of_pos hothers]
    cases rest with
    | nil => simp
    | cons d rest => simp [hrest d rfl]
  rw [step_append]
  dsimp only
  rw [if_neg fun h => isWordStart_ne hc (by decide) h.1, if_neg fun h => isWordStart_ne hc (by decide) h.1,
    if_neg fun h => not_isWordChar_of_mem_quotes h (isWordChar_of_isWordStart hc),
    if_neg (isWordStart_ne hc (by decide)), if_pos hc, htake]

theorem step_quote (front : List Char) (hc : c ∈ quotes) :
    step (front ++ c :: rest) front.length = (none, quoteEnd c rest (front.length + 1)) := by
  have hne : ∀ d, d ∉ quotes → c ≠ d := fun d hd heq => hd (heq ▸ hc)
  rw [step_append]
  dsimp only
  rw [if_neg fun h => hne '-' (by decide) h.1, if_neg fun h => hne '/' (by decide) h.1, if_pos hc]

theorem step_bracketed (front rest : List Char) {content : List Char} (h : ']' ∉ content) :
    step (front ++ '[' :: (content ++ ']' :: rest)) front.length = (none, front.length + (content.length + 2)) := by
  rw [step_append]
  dsimp only
  rw [if_neg fun h => absurd h.1 (by decide), if_neg fun h => absurd h.1 (by decide), if_neg (by decide), if_pos rfl,
    bracketEnd_append h, min_eq_left]
  · congr 1
    omega
  · simp
    omega

theorem step_line (front : List Char) {content : List Char} (h : ∀ c ∈ content, c ≠ '\r' ∧ c ≠ '\n') :
    step (front ++ '-' :: '-' :: (content ++ '\n' :: rest)) front.length =
      (none, front.length + (content.length + 2)) := by
  rw [step_append]
  dsimp only
  rw [if_pos ⟨rfl, rfl⟩, List.tail_cons, lineEnd_append h]
  congr 1
  omega

theorem step_block (front rest : List Char) {body : List Char} (h : ¬['*', '/'] <:+: body) :
    step (front ++ '/' :: '*' :: (body ++ '*' :: '/' :: rest)) front.length =
      (none, front.length + (body.length + 4)) := by
  rw [step_append]
  dsimp only
  rw [if_neg fun h => absurd h.1 (by decide), if_pos ⟨rfl, rfl⟩, List.tail_cons, blockEnd_append h, min_eq_left]
  · congr 1
    omega
  · simp
    omega

end Step

/-! ## All segments -/

/-- A quotation ends before anything but its quote. -/
theorem quoteEnd_closed {quote : Char} {s : List Char} (h : ∀ rest, s ≠ quote :: rest) (i : Nat) :
    quoteEnd quote (quote :: s) i = i + 1 := by
  cases s with
  | nil => rfl
  | cons d rest =>
    have hd : d ≠ quote := by
      rintro rfl
      exact h rest rfl
    rw [quoteEnd, if_pos rfl, if_neg hd]

/-- Quotations with one quote that follow each other are read as one, and have no words. -/
theorem exists_quoteEnd {quote : Char} (hquote : quote ∈ quotes) (segments : List Segment) :
    ∃ skipped segments', segments' <:+ segments ∧ wordsOf segments' = wordsOf segments ∧
      textOf segments = skipped ++ textOf segments' ∧
      ∀ i, quoteEnd quote (quote :: textOf segments) i = i + 1 + skipped.length := by
  induction segments with
  | nil => exact ⟨[], [], List.suffix_rfl, rfl, rfl, fun i => rfl⟩
  | cons segment segments ih =>
    obtain ⟨c, rest, htext, hquoted⟩ := segment.exists_text_eq
    by_cases hc : c = quote
    · obtain rfl := hc
      obtain ⟨content, h, rfl⟩ := hquoted hquote
      obtain ⟨skipped, segments', hsuffix, hwords, hskipped, hend⟩ := ih
      refine ⟨c :: (escape c content ++ [c]) ++ skipped, segments', hsuffix.trans (List.suffix_cons _ _), hwords, ?_,
        fun i => ?_⟩
      · rw [List.append_assoc, ← hskipped]
        rfl
      · have hopen : textOf (.quoted c content h :: segments) = c :: (escape c content ++ c :: textOf segments) := by
          simp [textOf, Segment.text]
        rw [hopen, quoteEnd, if_pos rfl, if_pos rfl, quoteEnd_escape, hend]
        simp
        omega
    · refine ⟨[], segment :: segments, List.suffix_rfl, rfl, rfl, fun i => quoteEnd_closed (fun rest' h => hc ?_) i⟩
      have hopen : textOf (segment :: segments) = c :: (rest ++ textOf segments) := by
        rw [textOf, List.flatMap_cons, htext]
        rfl
      exact List.head_eq_of_cons_eq (hopen.symm.trans h)

/-- An iteration reads a quotation, and those with the same quote that follow it. -/
theorem exists_step_quoted (front : List Char) {quote : Char} (hquote : quote ∈ quotes) (content : List Char)
    (segments : List Segment) : ∃ run segments', run ≠ [] ∧ segments' <:+ segments ∧
      wordsOf segments' = wordsOf segments ∧
      textOf (.quoted quote content hquote :: segments) = run ++ textOf segments' ∧
      step (front ++ (run ++ textOf segments')) front.length = (none, front.length + run.length) := by
  obtain ⟨skipped, segments', hsuffix, hwords, hskipped, hend⟩ := exists_quoteEnd hquote segments
  refine ⟨quote :: (escape quote content ++ quote :: skipped), segments', List.cons_ne_nil _ _, hsuffix, hwords, ?_, ?_⟩
  · rw [textOf, List.flatMap_cons, ← textOf, hskipped]
    simp [Segment.text]
  · rw [List.cons_append, step_quote front hquote, List.append_assoc, List.cons_append, ← hskipped, quoteEnd_escape,
      hend]
    simp
    omega

/-- An iteration that gets past `a`. -/
theorem sqlWordsFrom_append {front a s : List Char} {word : Option (List Char)} (ha : a ≠ [])
    (h : step (front ++ (a ++ s)) front.length = (word, front.length + a.length)) :
    sqlWordsFrom (front ++ (a ++ s)) front.length =
      word.toList ++ sqlWordsFrom ((front ++ a) ++ s) (front ++ a).length := by
  have hpos := List.length_pos_iff.2 ha
  rw [sqlWordsFrom, if_pos (by simp only [List.length_append]; omega), h, List.append_assoc, List.length_append]

theorem sqlWordsFrom_plain (text : List Char) (htext : ∀ c ∈ text, isPlain c) (front s : List Char) :
    sqlWordsFrom (front ++ (text ++ s)) front.length = sqlWordsFrom ((front ++ text) ++ s) (front ++ text).length := by
  induction text generalizing front with
  | nil => rw [List.nil_append, List.append_nil]
  | cons c text ih =>
    have hstep := sqlWordsFrom_append (a := [c]) (s := text ++ s) (List.cons_ne_nil c [])
      (step_plain front (htext c List.mem_cons_self))
    rw [show c :: text ++ s = [c] ++ (text ++ s) from rfl, hstep, ih fun c hc => htext c (List.mem_cons_of_mem _ hc)]
    simp

/-- After a word comes no character of a word. -/
theorem head_not_isWordChar {first : Char} {others : List Char} {hfirst hothers} {segments : List Segment}
    (h : Separated (.word first others hfirst hothers :: segments)) : ∀ c ∈ (textOf segments).head?, ¬isWordChar c := by
  cases segments with
  | nil => exact fun c hc => nomatch hc
  | cons segment segments =>
    obtain ⟨d, rest, htext, -⟩ := segment.exists_text_eq
    intro c hc
    rw [textOf, List.flatMap_cons, htext] at hc
    cases hc
    exact (List.isChain_cons_cons.1 h).1.not_isWordChar htext

/-- **The words of a text are those of its segments.** -/
theorem sqlWordsFrom_textOf {segments : List Segment} (h : Separated segments) (front : List Char) :
    sqlWordsFrom (front ++ textOf segments) front.length = wordsOf segments := by
  induction hn : segments.length using Nat.strong_induction_on generalizing segments front with
  | h n ih =>
    cases segments with
    | nil =>
      rw [sqlWordsFrom, if_neg (by simp [textOf])]
      rfl
    | cons segment segments =>
      have hrest : ∀ front, sqlWordsFrom (front ++ textOf segments) front.length = wordsOf segments :=
        fun front => ih segments.length (by rw [← hn, List.length_cons]; omega) h.tail front rfl
      cases segment with
      | word first others hfirst hothers =>
        have hstep := step_word front hfirst hothers (head_not_isWordChar h)
        have hword := sqlWordsFrom_append (a := first :: others) (List.cons_ne_nil _ _) hstep
        rw [hrest] at hword
        exact hword
      | space text hne hspaces =>
        have hspace := sqlWordsFrom_plain text (fun c hc => isPlain_of_mem_spaces (hspaces c hc)) front
          (textOf segments)
        rw [hrest] at hspace
        exact hspace
      | quoted quote content hquote =>
        obtain ⟨run, segments', hne, hsuffix, hwords, htext, hstep⟩ :=
          exists_step_quoted front hquote content segments
        have hlength : segments'.length < n := by
          rw [← hn, List.length_cons]
          exact Nat.lt_succ_of_le hsuffix.length_le
        rw [htext, sqlWordsFrom_append hne hstep, ih _ hlength (h.tail.suffix hsuffix) _ rfl, hwords]
        rfl
      | bracketed content hcontent =>
        have hstep : step (front ++ (('[' :: (content ++ [']'])) ++ textOf segments)) front.length =
            (none, front.length + ('[' :: (content ++ [']'])).length) := by
          simpa using step_bracketed front (textOf segments) hcontent
        have hword := sqlWordsFrom_append (List.cons_ne_nil _ _) hstep
        rw [hrest] at hword
        exact hword
      | line content hcontent =>
        have hstep : step (front ++ (('-' :: '-' :: content) ++ '\n' :: textOf segments)) front.length =
            (none, front.length + ('-' :: '-' :: content).length) := step_line front hcontent
        have hword := sqlWordsFrom_append (List.cons_ne_nil _ _) hstep
        have hbreak := sqlWordsFrom_plain ['\n'] (List.forall_mem_singleton.2 rfl) (front ++ '-' :: '-' :: content)
          (textOf segments)
        rw [List.singleton_append, hrest] at hbreak
        rw [hbreak] at hword
        have htext : textOf (.line content hcontent :: segments) =
            ('-' :: '-' :: content) ++ '\n' :: textOf segments := by
          simp [textOf, Segment.text]
        rw [htext]
        exact hword
      | block body hbody =>
        have hstep : step (front ++ (('/' :: '*' :: (body ++ ['*', '/'])) ++ textOf segments)) front.length =
            (none, front.length + ('/' :: '*' :: (body ++ ['*', '/'])).length) := by
          simpa using step_block front (textOf segments) hbody
        have hword := sqlWordsFrom_append (List.cons_ne_nil _ _) hstep
        rw [hrest] at hword
        exact hword
      | other c hc =>
        have hplain := sqlWordsFrom_plain [c] (by simpa using hc) front (textOf segments)
        rw [hrest] at hplain
        exact hplain

/-- The keywords of a text are the words that are keywords. -/
theorem keywordsInQuery_textOf {segments : List Segment} (h : Separated segments) (keywords : Finset (List Char)) :
    keywordsInQuery keywords (textOf segments) = (wordsOf segments).toFinset.filter (· ∈ keywords) :=
  congrArg (fun words : List (List Char) => words.toFinset.filter (· ∈ keywords)) (sqlWordsFrom_textOf h [])

/-- The index never leaves the text. -/
theorem iterate_step_le (sql : List Char) (n : Nat) : (fun i => (step sql i).2)^[n] 0 ≤ sql.length := by
  induction n with
  | zero => exact Nat.zero_le _
  | succ n ih =>
    rw [Function.iterate_succ_apply']
    obtain hi | hi := ih.lt_or_eq
    · exact (step_bounds hi).2
    · rw [hi, step_length]

/-- Until it is at the end, the index is at least the number of iterations. -/
theorem le_iterate_step (sql : List Char) (n : Nat) : min n sql.length ≤ (fun i => (step sql i).2)^[n] 0 := by
  induction n with
  | zero => exact min_le_left _ _
  | succ n ih =>
    rw [Function.iterate_succ_apply']
    obtain hi | hi := (iterate_step_le sql n).lt_or_eq
    · have hlt := (step_bounds hi).1
      omega
    · rw [hi, step_length]
      exact min_le_right _ _

/-- **The scanner sees exactly the unquoted words**: a text of segments, of which no word is directly followed by a
word or a digit, has the words of the segments, in capitals and in their order; and on any text the index never leaves
the text, gets further with every iteration, and is at the end after as many as there are characters. -/
theorem sqlWords_spec :
    (∀ segments, Separated segments → sqlWords (textOf segments) = wordsOf segments) ∧
    ∀ sql : List Char, (∀ n, (fun i => (step sql i).2)^[n] 0 ≤ sql.length) ∧
      (∀ i < sql.length, i < (step sql i).2) ∧ (fun i => (step sql i).2)^[sql.length] 0 = sql.length := by
  refine ⟨fun segments h => sqlWordsFrom_textOf h [], fun sql =>
    ⟨iterate_step_le sql, fun i hi => (step_bounds hi).1, le_antisymm (iterate_step_le sql _) ?_⟩⟩
  simpa using le_iterate_step sql sql.length

/-- `SELECT 'a''-- b' "c"/* d */from`, with a quote and a comment of which the words are not seen. -/
def quotedQuery : List Segment :=
  [.word 'S' "ELECT".toList rfl (List.all_eq_true.1 rfl), .space [' '] (by decide) (by simp [spaces]),
    .quoted '\'' "a'-- b".toList (by decide), .quoted (Char.ofNat 34) ['c'] (by decide),
    .block " d ".toList (by decide), .word 'f' "rom".toList rfl (List.all_eq_true.1 rfl)]

theorem sqlWords_quotedQuery : sqlWords (textOf quotedQuery) = ["SELECT".toList, "FROM".toList] :=
  sqlWords_spec.1 quotedQuery (by simp [quotedQuery, Separated, Segment.Apart])

end Lsf.Tester
