import Mathlib.Data.List.Forall2
import Mathlib.Data.List.TakeWhile
import Lsf.Tester.Signature

/-!
# Literals in a signature

What `get_structural_signature` (`tester/oracle.py`) makes of a query whose literals are filled into a template. A
number becomes `N`. A string ends for the expression at its first inner quote, so that a string with `k` inner quotes
becomes `k + 1` letters `S`; and one with a line break may not end at all. So the signature depends on the strings, as
soon as there are any (`structuralSignature_fill_iff`).
-/

namespace Lsf.Tester

/-! ## Templates -/

/-- A kind of literal. -/
inductive Kind where
  | string
  | integer
deriving DecidableEq

/-- A literal: a string with any content, or decimal digits. -/
inductive Literal : Kind → Type where
  | string (content : List Char) : Literal .string
  | integer (digits : List Char) (hne : digits ≠ []) (hdigits : ∀ c ∈ digits, c.isDigit) : Literal .integer

/-- A piece of a query without quotes, between two spaces. -/
structure Piece where
  text : List Char
  begins : text.head? = some ' '
  ends : text.getLast? = some ' '
  unquoted : '\'' ∉ text

/-- A query with slots for literals, each followed by a piece. -/
structure Template where
  first : Piece
  slots : List (Kind × Piece)

/-- Literals for the slots. -/
inductive Filling : List (Kind × Piece) → Type where
  | nil : Filling []
  | cons {kind : Kind} {piece : Piece} {slots : List (Kind × Piece)} (literal : Literal kind)
      (filling : Filling slots) : Filling ((kind, piece) :: slots)

/-- The text of a string, with inner quotes doubled, or of a number. -/
def Literal.text {kind : Kind} : Literal kind → List Char
  | .string content => '\'' :: (content.flatMap fun c => if c = '\'' then [c, c] else [c]) ++ ['\'']
  | .integer digits _ _ => digits

/-- How many quotes there are in the content of a string. -/
def Literal.innerQuotes {kind : Kind} : Literal kind → Nat
  | .string content => content.count '\''
  | .integer _ _ _ => 0

/-- There is no line break in a string. -/
def Literal.Unbroken {kind : Kind} : Literal kind → Prop
  | .string content => '\n' ∉ content
  | .integer _ _ _ => True

namespace Filling

/-- The literals with the pieces that follow them. -/
def text : {slots : List (Kind × Piece)} → Filling slots → List Char
  | [], .nil => []
  | (_, piece) :: _, .cons literal filling => literal.text ++ piece.text ++ filling.text

def innerQuotes : {slots : List (Kind × Piece)} → Filling slots → List Nat
  | [], .nil => []
  | _ :: _, .cons literal filling => literal.innerQuotes :: filling.innerQuotes

def Unbroken : {slots : List (Kind × Piece)} → Filling slots → Prop
  | [], .nil => True
  | _ :: _, .cons literal filling => literal.Unbroken ∧ filling.Unbroken

end Filling

/-- The query. -/
def Template.fill (template : Template) (filling : Filling template.slots) : List Char :=
  template.first.text ++ filling.text

/-- The same content for every string, and a zero for every number. -/
def fillAll (content : List Char) : (slots : List (Kind × Piece)) → Filling slots
  | [] => .nil
  | (.string, _) :: slots => .cons (.string content) (fillAll content slots)
  | (.integer, _) :: slots =>
    .cons (.integer ['0'] (List.cons_ne_nil _ _) (List.all_eq_true.1 rfl)) (fillAll content slots)

theorem unbroken_fillAll {content : List Char} (h : '\n' ∉ content) (slots : List (Kind × Piece)) :
    (fillAll content slots).Unbroken := by
  induction slots with
  | nil => exact True.intro
  | cons slot slots ih =>
    obtain ⟨kind, piece⟩ := slot
    cases kind with
    | string => exact ⟨h, ih⟩
    | integer => exact ⟨True.intro, ih⟩

theorem innerQuotes_fillAll_ne {piece : Piece} {slots : List (Kind × Piece)} (h : (Kind.string, piece) ∈ slots) :
    (fillAll [] slots).innerQuotes ≠ (fillAll ['\''] slots).innerQuotes := by
  induction slots with
  | nil => cases h
  | cons slot slots ih =>
    obtain ⟨kind, piece'⟩ := slot
    intro heq
    cases kind with
    | string => exact nomatch (List.cons.inj heq).1
    | integer =>
      cases h with
      | tail _ h => exact ih h (List.cons.inj heq).2

/-- Some slot is for a string. -/
def Template.HasString (template : Template) : Prop := ∃ piece, (Kind.string, piece) ∈ template.slots

namespace Filling

theorem unbroken_of_no_string {slots : List (Kind × Piece)} (h : ¬∃ piece, (Kind.string, piece) ∈ slots)
    (filling : Filling slots) : filling.Unbroken := by
  induction filling with
  | nil => exact True.intro
  | @cons kind piece slots literal filling ih =>
    refine ⟨?_, ih fun ⟨piece', hmem⟩ => h ⟨piece', List.mem_cons_of_mem _ hmem⟩⟩
    cases literal with
    | string => exact (h ⟨piece, List.mem_cons_self⟩).elim
    | integer => exact True.intro

theorem innerQuotes_eq_of_no_string {slots : List (Kind × Piece)} (h : ¬∃ piece, (Kind.string, piece) ∈ slots)
    (filling filling' : Filling slots) : filling.innerQuotes = filling'.innerQuotes := by
  induction filling with
  | nil =>
    cases filling'
    rfl
  | @cons kind piece slots literal filling ih =>
    cases filling' with
    | cons literal' filling' =>
      refine congrArg₂ List.cons ?_ (ih (fun ⟨piece', hmem⟩ => h ⟨piece', List.mem_cons_of_mem _ hmem⟩) filling')
      cases literal with
      | string => exact (h ⟨piece, List.mem_cons_self⟩).elim
      | integer =>
        cases literal'
        rfl

end Filling

/-! ## Case and numbers -/

/-- What a character is in lower case: quotes, line breaks and digits have no case and come from nothing else. -/
def Lowers (c : Char) (block : List Char) : Prop :=
  if c = '\'' ∨ c = '\n' ∨ c.isDigit then block = [c] else '\'' ∉ block ∧ '\n' ∉ block

/-- What holds of the character tables of Python: lower case goes character by character, where the form of a letter
depends on the letters around it up to the next spaces, and digits are digits. -/
class LawfulUnicode [Unicode] : Prop where
  lower_blocks : ∀ s, ∃ blocks, List.Forall₂ Lowers s blocks ∧ Unicode.lower s = blocks.flatten
  lower_append_space : ∀ a b, Unicode.lower (a ++ ' ' :: b) = Unicode.lower a ++ ' ' :: Unicode.lower b
  isWord_quote : Unicode.isWord '\'' = false
  isWord_space : Unicode.isWord ' ' = false
  isDigit : ∀ c : Char, c.isDigit → Unicode.isWord c ∧ Unicode.isDigit c
  isSpace_space : Unicode.isSpace ' ' = true
  isSpace_letters : ∀ c ∈ ['S', 'N'], Unicode.isSpace c = false

section Numbers

variable [Unicode]

/-- The rule for one run: `N` for digits. -/
def numberRun (run : List Char) : List Char :=
  if run.all fun c => Unicode.isWord c && Unicode.isDigit c then ['N'] else run

theorem subNumbers_eq (s : List Char) :
    subNumbers s = ((s.splitBy fun a b => Unicode.isWord a == Unicode.isWord b).map numberRun).flatten := rfl

theorem subNumbers_nil : subNumbers [] = [] := rfl

/-- A character of no word stays where it is. -/
theorem numberRun_of_mem {run : List Char} {c : Char} (hc : c ∈ run) (hword : Unicode.isWord c = false) :
    numberRun run = run := by
  refine if_neg fun hall => ?_
  have h := List.all_eq_true.1 hall c hc
  rw [hword] at h
  cases h

/-- Runs of which all characters are of words, or none, are not split. -/
theorem splitBy_isWord {run : List Char} (hne : run ≠ []) {word : Bool} (h : ∀ c ∈ run, Unicode.isWord c = word) :
    run.splitBy (fun a b => Unicode.isWord a == Unicode.isWord b) = [run] := by
  refine List.splitBy_of_isChain hne (List.Pairwise.isChain ?_)
  exact List.pairwise_of_forall_mem_list fun a ha b hb => by simp [h a ha, h b hb]

/-- What is of no word stays, and the rest is as it is by itself if it begins with a word. -/
theorem subNumbers_append_of_not_word {run s : List Char} (hrun : ∀ c ∈ run, Unicode.isWord c = false)
    (hs : ∀ c ∈ s.head?, Unicode.isWord c) : subNumbers (run ++ s) = run ++ subNumbers s := by
  by_cases hne : run = []
  · rw [hne]
    rfl
  · have hsplit : (run ++ s).splitBy (fun a b => Unicode.isWord a == Unicode.isWord b) =
        run.splitBy (fun a b => Unicode.isWord a == Unicode.isWord b) ++
          s.splitBy (fun a b => Unicode.isWord a == Unicode.isWord b) :=
      List.splitBy_append fun a ha b hb => by simp [hrun a (List.mem_of_mem_getLast? ha), hs b hb]
    obtain ⟨c, hc⟩ := List.exists_mem_of_ne_nil run hne
    rw [subNumbers_eq, hsplit, splitBy_isWord hne hrun, List.map_append, List.flatten_append, ← subNumbers_eq,
      List.map_singleton, numberRun_of_mem hc (hrun c hc), List.flatten_singleton]

theorem subNumbers_cons {c : Char} (hc : Unicode.isWord c = false) (s : List Char) :
    subNumbers (c :: s) = c :: subNumbers s := by
  have hrun : ∀ d ∈ s.takeWhile (!Unicode.isWord ·), Unicode.isWord d = false := fun d hd => by
    simpa using List.mem_takeWhile_imp hd
  have hrest : ∀ d ∈ (s.dropWhile (!Unicode.isWord ·)).head?, Unicode.isWord d := fun d hd => by
    have h := List.head?_dropWhile_not (!Unicode.isWord ·) s
    rw [Option.mem_def.1 hd] at h
    simpa using h
  conv_lhs => rw [← List.takeWhile_append_dropWhile (p := (!Unicode.isWord ·)) (l := s)]
  conv_rhs => rw [← List.takeWhile_append_dropWhile (p := (!Unicode.isWord ·)) (l := s)]
  rw [← List.cons_append, subNumbers_append_of_not_word (List.forall_mem_cons.2 ⟨hc, hrun⟩) hrest,
    subNumbers_append_of_not_word hrun hrest, List.cons_append]

/-- **Numbers do not go across a character of no word.** -/
theorem subNumbers_append_cons {c : Char} (hc : Unicode.isWord c = false) (a b : List Char) :
    subNumbers (a ++ c :: b) = subNumbers a ++ c :: subNumbers b := by
  induction a using List.reverseRecOn generalizing c b with
  | nil => exact subNumbers_cons hc b
  | append_singleton a e ih =>
    by_cases he : Unicode.isWord e
    · have hsplit := List.splitBy_append_cons (r := fun a b => Unicode.isWord a == Unicode.isWord b) (l := a ++ [e])
        (a := c) b (by simp [he, hc])
      rw [subNumbers_eq, hsplit, List.map_append, List.flatten_append, ← subNumbers_eq, ← subNumbers_eq,
        subNumbers_cons hc]
    · have he : Unicode.isWord e = false := by simpa using he
      have hfirst := ih he (c :: b)
      have hlast := ih he []
      rw [List.append_assoc, List.singleton_append, hfirst, hlast, subNumbers_cons hc, subNumbers_nil]
      simp

/-- Nothing comes in but `N`. -/
theorem mem_subNumbers {c : Char} {s : List Char} (h : c ∈ subNumbers s) : c ∈ s ∨ c = 'N' := by
  rw [subNumbers_eq, List.mem_flatten] at h
  obtain ⟨run', hrun', hc⟩ := h
  obtain ⟨run, hrun, rfl⟩ := List.mem_map.1 hrun'
  unfold numberRun at hc
  split at hc
  · exact .inr (List.mem_singleton.1 hc)
  · refine .inl ?_
    rw [← List.flatten_splitBy (fun a b => Unicode.isWord a == Unicode.isWord b) s]
    exact List.mem_flatten.2 ⟨run, hrun, hc⟩

/-- Digits are one number. -/
theorem subNumbers_digits [LawfulUnicode] {digits : List Char} (hne : digits ≠ []) (h : ∀ c ∈ digits, c.isDigit) :
    subNumbers digits = ['N'] := by
  rw [subNumbers_eq, splitBy_isWord hne fun c hc => (LawfulUnicode.isDigit c (h c hc)).1, List.map_singleton,
    List.flatten_singleton, numberRun, if_pos]
  rw [List.all_eq_true]
  intro c hc
  have hdigit := LawfulUnicode.isDigit c (h c hc)
  rw [hdigit.1, hdigit.2]
  rfl

end Numbers

theorem eq_append_space_of_getLast? {s : List Char} (h : s.getLast? = some ' ') : ∃ t, s = t ++ [' '] :=
  ⟨s.dropLast, (List.dropLast_append_getLast? ' ' h).symm⟩

/-- Neither quotes nor line breaks come from other characters. -/
theorem not_mem_flatten_of_lowers {q : Char} (hq : q = '\'' ∨ q = '\n') {s : List Char} {blocks : List (List Char)}
    (h : List.Forall₂ Lowers s blocks) (hs : q ∉ s) : q ∉ blocks.flatten := by
  induction h with
  | nil => exact fun h => nomatch h
  | @cons c block s blocks hc _ ih =>
    rw [List.mem_cons, not_or] at hs
    rw [List.flatten_cons, List.mem_append, not_or]
    refine ⟨?_, ih hs.2⟩
    unfold Lowers at hc
    split at hc
    · rw [hc, List.mem_singleton]
      exact hs.1
    · rcases hq with rfl | rfl
      · exact hc.1
      · exact hc.2

/-- Digits have no case. -/
theorem flatten_of_lowers_digits {digits : List Char} {blocks : List (List Char)}
    (h : List.Forall₂ Lowers digits blocks) (hdigits : ∀ c ∈ digits, c.isDigit) : blocks.flatten = digits := by
  induction h with
  | nil => rfl
  | cons hc _ ih =>
    obtain ⟨hdigit, hdigits⟩ := List.forall_mem_cons.1 hdigits
    rw [Lowers, if_pos (.inr (.inr hdigit))] at hc
    rw [hc, List.flatten_cons, ih hdigits, List.singleton_append]

theorem exists_append_of_forall₂ {α β : Type} {R : α → β → Prop} {a b : List α} {l : List β}
    (h : List.Forall₂ R (a ++ b) l) : ∃ l₁ l₂, l = l₁ ++ l₂ ∧ List.Forall₂ R a l₁ ∧ List.Forall₂ R b l₂ := by
  induction a generalizing l with
  | nil => exact ⟨[], l, rfl, .nil, h⟩
  | cons c a ih =>
    obtain ⟨d, l', hcd, hrest, rfl⟩ := List.forall₂_cons_left_iff.1 h
    obtain ⟨l₁, l₂, rfl, ha, hb⟩ := ih hrest
    exact ⟨d :: l₁, l₂, rfl, .cons hcd ha, hb⟩

/-! ## Strings -/

/-- What is neither a quote nor a line break. -/
def Clean (s : List Char) : Prop := '\'' ∉ s ∧ '\n' ∉ s

/-- `k + 1` quotations, one directly after the other. -/
inductive Quoted : Nat → List Char → Prop
  | last {y : List Char} : Clean y → Quoted 0 ('\'' :: (y ++ ['\'']))
  | more {k : Nat} {y s : List Char} : Clean y → Quoted k s → Quoted (k + 1) ('\'' :: (y ++ '\'' :: s))

/-- A string with `k` inner quotes looks like `k + 1` quotations. -/
theorem quoted_escape {content : List Char} (h : '\n' ∉ content) {y : List Char} (hy : Clean y) :
    Quoted (content.count '\'')
      ('\'' :: (y ++ ((content.flatMap fun c => if c = '\'' then [c, c] else [c]) ++ ['\'']))) := by
  induction content generalizing y with
  | nil => exact .last hy
  | cons c content ih =>
    rw [List.mem_cons, not_or] at h
    rw [List.flatMap_cons]
    by_cases hc : c = '\''
    · rw [hc, if_pos rfl, List.count_cons_self]
      exact .more hy (ih h.2 ⟨List.not_mem_nil, List.not_mem_nil⟩)
    · have hyc : Clean (y ++ [c]) := by
        unfold Clean at hy ⊢
        simp only [List.mem_append, List.mem_singleton, not_or]
        exact ⟨⟨hy.1, Ne.symm hc⟩, hy.2, h.1⟩
      rw [if_neg hc, List.count_cons_of_ne hc]
      simpa only [List.append_assoc] using ih h.2 hyc

/-- Quotations stay quotations in lower case. -/
theorem Quoted.lower {k : Nat} {s : List Char} {blocks : List (List Char)} (h : Quoted k s)
    (hs : List.Forall₂ Lowers s blocks) : Quoted k blocks.flatten := by
  have hquote : ∀ {block}, Lowers '\'' block → block = ['\''] := fun h => by
    rwa [Lowers, if_pos (.inl rfl)] at h
  have hclean : ∀ {y blocks}, Clean y → List.Forall₂ Lowers y blocks → Clean blocks.flatten := fun hy h =>
    ⟨not_mem_flatten_of_lowers (.inl rfl) h hy.1, not_mem_flatten_of_lowers (.inr rfl) h hy.2⟩
  induction h generalizing blocks with
  | last hy =>
    obtain ⟨_, rest, hopen, hrest, rfl⟩ := List.forall₂_cons_left_iff.1 hs
    obtain ⟨inner, _, rfl, hinner, hend⟩ := exists_append_of_forall₂ hrest
    obtain ⟨_, _, hclose, hnil, rfl⟩ := List.forall₂_cons_left_iff.1 hend
    rw [List.forall₂_nil_left_iff.1 hnil, hquote hopen, hquote hclose]
    simpa using Quoted.last (hclean hy hinner)
  | more hy _ ih =>
    obtain ⟨_, rest, hopen, hrest, rfl⟩ := List.forall₂_cons_left_iff.1 hs
    obtain ⟨inner, _, rfl, hinner, hend⟩ := exists_append_of_forall₂ hrest
    obtain ⟨_, others, hclose, hothers, rfl⟩ := List.forall₂_cons_left_iff.1 hend
    rw [hquote hopen, hquote hclose]
    simpa using Quoted.more (hclean hy hinner) (ih hothers)

theorem subStrings_some {y : List Char} (hy : Clean y) (quoted rest : List Char) :
    subStrings (some quoted) (y ++ '\'' :: rest) = 'S' :: subStrings none rest := by
  induction y generalizing quoted with
  | nil => rw [List.nil_append, subStrings, if_pos rfl]
  | cons c y ih =>
    unfold Clean at hy
    simp only [List.mem_cons, not_or] at hy
    rw [List.cons_append, subStrings, if_neg (Ne.symm hy.1.1), if_neg (Ne.symm hy.2.1)]
    exact ih ⟨hy.1.2, hy.2.2⟩ _

/-- **Every quotation becomes one letter.** -/
theorem Quoted.subStrings {k : Nat} {s : List Char} (h : Quoted k s) (rest : List Char) :
    subStrings none (s ++ rest) = List.replicate (k + 1) 'S' ++ subStrings none rest := by
  induction h with
  | last hy =>
    rw [List.cons_append, List.append_assoc, List.singleton_append, Tester.subStrings, if_pos rfl, subStrings_some hy]
    rfl
  | more hy _ ih =>
    rw [List.cons_append, List.append_assoc, List.cons_append, Tester.subStrings, if_pos rfl, subStrings_some hy, ih]
    rfl

/-- What has no quotes stays. -/
theorem subStrings_append {s : List Char} (h : '\'' ∉ s) (rest : List Char) :
    subStrings none (s ++ rest) = s ++ subStrings none rest := by
  induction s with
  | nil => rfl
  | cons c s ih =>
    rw [List.mem_cons, not_or] at h
    rw [List.cons_append, subStrings, if_neg (Ne.symm h.1), ih h.2, List.cons_append]

/-! ## Words -/

section Words

variable [Unicode]

theorem words_nil : words [] = [] := by
  rw [words, List.splitOnP_nil]
  rfl

/-- **Words do not go across white space.** -/
theorem words_append_cons {c : Char} (hc : Unicode.isSpace c) (a b : List Char) :
    words (a ++ c :: b) = words a ++ words b := by
  rw [words, List.splitOnP_append_cons a b hc, List.filter_append]
  rfl

/-- A word: not empty, and without white space. -/
def IsWord (word : List Char) : Prop := word ≠ [] ∧ ∀ c ∈ word, Unicode.isSpace c = false

theorem words_of_isWord {word : List Char} (h : IsWord word) : words word = [word] := by
  rw [words, List.splitOnP_eq_singleton h.2]
  simp [h.1]

theorem isWord_of_mem_words {s word : List Char} (h : word ∈ words s) : IsWord word := by
  induction hn : s.length using Nat.strong_induction_on generalizing s with
  | h n ih =>
    by_cases hspace : ∃ c ∈ s, Unicode.isSpace c
    · obtain ⟨c, hmem, hc⟩ := hspace
      obtain ⟨a, b, rfl⟩ := List.append_of_mem hmem
      rw [List.length_append, List.length_cons] at hn
      rw [words_append_cons hc, List.mem_append] at h
      rcases h with h | h
      · exact ih a.length (by omega) h rfl
      · exact ih b.length (by omega) h rfl
    · have hplain : ∀ c ∈ s, Unicode.isSpace c = false := fun c hc =>
        Bool.eq_false_iff.2 fun h => hspace ⟨c, hc, h⟩
      by_cases hne : s = []
      · rw [hne, words_nil] at h
        cases h
      · rw [words_of_isWord ⟨hne, hplain⟩, List.mem_singleton] at h
        rw [h]
        exact ⟨hne, hplain⟩

end Words

/-! ## Signatures -/

section Tokens

variable [Unicode]

/-- The first two passes. -/
def numbered (s : List Char) : List Char := subNumbers (Unicode.lower s)

/-- What a literal is in a signature, if it has no line break. -/
def Literal.token {kind : Kind} (literal : Literal kind) : List Char :=
  match kind with
  | .string => List.replicate (literal.innerQuotes + 1) 'S'
  | .integer => ['N']

namespace Filling

/-- The text after the third pass. -/
def shape : {slots : List (Kind × Piece)} → Filling slots → List Char
  | [], .nil => []
  | (_, piece) :: _, .cons literal filling => literal.token ++ (numbered piece.text ++ filling.shape)

/-- Its words. -/
def tokens : {slots : List (Kind × Piece)} → Filling slots → List (List Char)
  | [], .nil => []
  | (_, piece) :: _, .cons literal filling => literal.token :: (words (numbered piece.text) ++ filling.tokens)

/-- The tokens tell how many inner quotes there are, and nothing else. -/
theorem tokens_eq_iff {slots : List (Kind × Piece)} (filling filling' : Filling slots) :
    filling.tokens = filling'.tokens ↔ filling.innerQuotes = filling'.innerQuotes := by
  induction filling with
  | nil =>
    cases filling'
    exact iff_of_true rfl rfl
  | @cons kind piece slots literal filling ih =>
    cases filling' with
    | cons literal' filling' =>
      have hliteral : literal.token = literal'.token ↔ literal.innerQuotes = literal'.innerQuotes := by
        cases literal with
        | string content =>
          exact (List.replicate_left_injective 'S').eq_iff.trans Nat.succ_inj
        | integer =>
          cases literal'
          exact iff_of_true rfl rfl
      show literal.token :: (words (numbered piece.text) ++ filling.tokens) =
        literal'.token :: (words (numbered piece.text) ++ filling'.tokens) ↔
          literal.innerQuotes :: filling.innerQuotes = literal'.innerQuotes :: filling'.innerQuotes
      rw [List.cons.injEq, List.cons.injEq, List.append_cancel_left_eq, hliteral, ih]

end Filling

end Tokens

section Signature

variable [Unicode] [LawfulUnicode]

theorem numbered_nil : numbered [] = [] := by
  obtain ⟨blocks, hblocks, hlower⟩ := LawfulUnicode.lower_blocks []
  rw [List.forall₂_nil_left_iff.1 hblocks] at hlower
  rw [numbered, hlower]
  rfl

/-- **The first two passes do not go across a space.** -/
theorem numbered_append_space (a b : List Char) : numbered (a ++ ' ' :: b) = numbered a ++ ' ' :: numbered b := by
  rw [numbered, LawfulUnicode.lower_append_space, subNumbers_append_cons LawfulUnicode.isWord_space]
  rfl

/-- Text that ends with a space is by itself. -/
theorem numbered_append_of_ends {a : List Char} (h : a.getLast? = some ' ') (b : List Char) :
    numbered (a ++ b) = numbered a ++ numbered b := by
  obtain ⟨t, rfl⟩ := eq_append_space_of_getLast? h
  rw [List.append_assoc, List.singleton_append, numbered_append_space, numbered_append_space, numbered_nil,
    List.append_assoc, List.singleton_append]

/-- And so is text that begins with a space. -/
theorem numbered_append_of_begins (a : List Char) {b : List Char} (h : b.head? = some ' ') :
    numbered (a ++ b) = numbered a ++ numbered b := by
  obtain ⟨t, rfl⟩ := List.head?_eq_some_iff.1 h
  have hspace := numbered_append_space [] t
  rw [List.nil_append, numbered_nil, List.nil_append] at hspace
  rw [numbered_append_space, hspace]

/-- Neither quotes nor line breaks come in. -/
theorem not_mem_numbered {q : Char} (hq : q = '\'' ∨ q = '\n') {s : List Char} (h : q ∉ s) : q ∉ numbered s := by
  obtain ⟨blocks, hblocks, hlower⟩ := LawfulUnicode.lower_blocks s
  intro hmem
  rw [numbered, hlower] at hmem
  rcases mem_subNumbers hmem with hmem | rfl
  · exact not_mem_flatten_of_lowers hq hblocks h hmem
  · rcases hq with hq | hq <;> cases hq

theorem Quoted.numbered {k : Nat} {s : List Char} (h : Quoted k s) : Quoted k (numbered s) := by
  have hclean : ∀ {y}, Clean y → Clean (subNumbers y) := fun hy => by
    refine ⟨fun h => ?_, fun h => ?_⟩
    · exact (mem_subNumbers h).elim hy.1 (by decide)
    · exact (mem_subNumbers h).elim hy.2 (by decide)
  obtain ⟨blocks, hblocks, hlower⟩ := LawfulUnicode.lower_blocks s
  have hquoted := h.lower hblocks
  rw [Tester.numbered, hlower]
  clear hlower hblocks h
  generalize blocks.flatten = t at hquoted ⊢
  induction hquoted with
  | last hy =>
    rw [subNumbers_cons LawfulUnicode.isWord_quote, subNumbers_append_cons LawfulUnicode.isWord_quote, subNumbers_nil]
    exact .last (hclean hy)
  | more hy _ ih =>
    rw [subNumbers_cons LawfulUnicode.isWord_quote, subNumbers_append_cons LawfulUnicode.isWord_quote]
    exact .more (hclean hy) ih

/-- **A literal becomes its token.** -/
theorem subStrings_numbered_literal {kind : Kind} (literal : Literal kind) (h : literal.Unbroken) (rest : List Char) :
    subStrings none (numbered literal.text ++ rest) = literal.token ++ subStrings none rest := by
  cases literal with
  | string content =>
    exact (quoted_escape h ⟨List.not_mem_nil, List.not_mem_nil⟩).numbered.subStrings rest
  | integer digits hne hdigits =>
    obtain ⟨blocks, hblocks, hlower⟩ := LawfulUnicode.lower_blocks digits
    have hnumber : numbered digits = ['N'] := by
      rw [numbered, hlower, flatten_of_lowers_digits hblocks hdigits, subNumbers_digits hne hdigits]
    show subStrings none (numbered digits ++ rest) = ['N'] ++ subStrings none rest
    rw [hnumber]
    exact subStrings_append (by decide) rest

namespace Filling

theorem subStrings_numbered {slots : List (Kind × Piece)} (filling : Filling slots) (h : filling.Unbroken) :
    subStrings none (numbered filling.text) = filling.shape := by
  induction filling with
  | nil =>
    show subStrings none (numbered []) = []
    rw [numbered_nil]
    rfl
  | @cons kind piece slots literal filling ih =>
    have hbegins : (piece.text ++ filling.text).head? = some ' ' := by
      rw [List.head?_append, piece.begins]
      rfl
    show subStrings none (numbered (literal.text ++ piece.text ++ filling.text)) =
      literal.token ++ (numbered piece.text ++ filling.shape)
    rw [List.append_assoc, numbered_append_of_begins _ hbegins, numbered_append_of_ends piece.ends,
      subStrings_numbered_literal literal h.1, subStrings_append (not_mem_numbered (.inl rfl) piece.unquoted), ih h.2]

end Filling

theorem words_append_space (a b : List Char) : words (a ++ ' ' :: b) = words a ++ words b :=
  words_append_cons LawfulUnicode.isSpace_space a b

theorem words_append_of_ends {a : List Char} (h : a.getLast? = some ' ') (b : List Char) :
    words (a ++ b) = words a ++ words b := by
  obtain ⟨t, rfl⟩ := eq_append_space_of_getLast? h
  rw [List.append_assoc, List.singleton_append, words_append_space, words_append_space, words_nil, List.append_nil]

theorem words_append_of_begins (a : List Char) {b : List Char} (h : b.head? = some ' ') :
    words (a ++ b) = words a ++ words b := by
  obtain ⟨t, rfl⟩ := List.head?_eq_some_iff.1 h
  have hspace := words_append_space [] t
  rw [List.nil_append, words_nil, List.nil_append] at hspace
  rw [words_append_space, hspace]

/-- Joined words are split again. -/
theorem words_intercalate {ws : List (List Char)} (h : ∀ word ∈ ws, IsWord word) :
    words ([' '].intercalate ws) = ws := by
  induction ws with
  | nil => exact words_nil
  | cons word ws ih =>
    obtain ⟨hword, hws⟩ := List.forall_mem_cons.1 h
    cases ws with
    | nil =>
      rw [List.intercalate_singleton]
      exact words_of_isWord hword
    | cons word' ws =>
      rw [List.intercalate_cons_cons, List.append_assoc, List.singleton_append, words_append_space, ih hws,
        words_of_isWord hword, List.singleton_append]

theorem head?_numbered {s : List Char} (h : s.head? = some ' ') : (numbered s).head? = some ' ' := by
  obtain ⟨t, rfl⟩ := List.head?_eq_some_iff.1 h
  have hspace := numbered_append_space [] t
  rw [List.nil_append, numbered_nil, List.nil_append] at hspace
  rw [hspace, List.head?_cons]

theorem getLast?_numbered {s : List Char} (h : s.getLast? = some ' ') : (numbered s).getLast? = some ' ' := by
  obtain ⟨t, rfl⟩ := eq_append_space_of_getLast? h
  rw [numbered_append_space, numbered_nil, List.getLast?_concat]

theorem Literal.isWord_token {kind : Kind} (literal : Literal kind) : IsWord literal.token := by
  cases literal with
  | string content =>
    refine ⟨List.cons_ne_nil _ _, fun c hc => ?_⟩
    rw [List.eq_of_mem_replicate hc]
    exact LawfulUnicode.isSpace_letters 'S' (by decide)
  | integer digits hne hdigits =>
    refine ⟨List.cons_ne_nil _ _, fun c hc => ?_⟩
    rw [List.mem_singleton.1 hc]
    exact LawfulUnicode.isSpace_letters 'N' (by decide)

namespace Filling

theorem words_shape {slots : List (Kind × Piece)} (filling : Filling slots) : words filling.shape = filling.tokens := by
  induction filling with
  | nil => exact words_nil
  | @cons kind piece slots literal filling ih =>
    have hbegins : (numbered piece.text ++ filling.shape).head? = some ' ' := by
      rw [List.head?_append, head?_numbered piece.begins]
      rfl
    show words (literal.token ++ (numbered piece.text ++ filling.shape)) =
      literal.token :: (words (numbered piece.text) ++ filling.tokens)
    rw [words_append_of_begins _ hbegins, words_append_of_ends (getLast?_numbered piece.ends), ih,
      words_of_isWord literal.isWord_token, List.singleton_append]

theorem isWord_of_mem_tokens {slots : List (Kind × Piece)} (filling : Filling slots) :
    ∀ word ∈ filling.tokens, IsWord word := by
  induction filling with
  | nil => exact fun word h => nomatch h
  | @cons kind piece slots literal filling ih =>
    refine List.forall_mem_cons.2 ⟨literal.isWord_token, fun word h => ?_⟩
    exact (List.mem_append.1 h).elim isWord_of_mem_words (ih word)

end Filling

/-- The signature of a query whose strings have no line breaks. -/
theorem structuralSignature_fill (template : Template) (filling : Filling template.slots) (h : filling.Unbroken) :
    structuralSignature (template.fill filling) =
      [' '].intercalate (words (numbered template.first.text) ++ filling.tokens) := by
  show [' '].intercalate (words (subStrings none (numbered (template.first.text ++ filling.text)))) = _
  rw [numbered_append_of_ends template.first.ends,
    subStrings_append (not_mem_numbered (.inl rfl) template.first.unquoted), filling.subStrings_numbered h,
    words_append_of_ends (getLast?_numbered template.first.ends), filling.words_shape]

/-- **Without line breaks, signatures agree exactly if the numbers of inner quotes do.** -/
theorem structuralSignature_eq_iff (template : Template) {filling filling' : Filling template.slots}
    (h : filling.Unbroken) (h' : filling'.Unbroken) :
    structuralSignature (template.fill filling) = structuralSignature (template.fill filling') ↔
      filling.innerQuotes = filling'.innerQuotes := by
  have hwords : ∀ filling : Filling template.slots,
      ∀ word ∈ words (numbered template.first.text) ++ filling.tokens, IsWord word := fun filling word hmem =>
    (List.mem_append.1 hmem).elim isWord_of_mem_words (filling.isWord_of_mem_tokens word)
  rw [structuralSignature_fill template filling h, structuralSignature_fill template filling' h',
    ← Filling.tokens_eq_iff]
  constructor
  · intro heq
    have hsplit := congrArg words heq
    rw [words_intercalate (hwords filling), words_intercalate (hwords filling')] at hsplit
    exact List.append_cancel_left hsplit
  · intro heq
    rw [heq]

/-- **Signatures ignore the literals of a template exactly if none of them is a string**; and of strings without line
breaks they tell the numbers of inner quotes, and nothing else. -/
theorem structuralSignature_fill_iff (template : Template) :
    ((∀ filling filling' : Filling template.slots,
      structuralSignature (template.fill filling) = structuralSignature (template.fill filling')) ↔
        ¬template.HasString) ∧
    ∀ filling filling' : Filling template.slots, filling.Unbroken → filling'.Unbroken →
      (structuralSignature (template.fill filling) = structuralSignature (template.fill filling') ↔
        filling.innerQuotes = filling'.innerQuotes) := by
  refine ⟨⟨fun h hstring => ?_, fun hstring filling filling' => ?_⟩, fun filling filling' =>
    structuralSignature_eq_iff template⟩
  · have hquotes := (structuralSignature_eq_iff template (unbroken_fillAll (by decide) template.slots)
      (unbroken_fillAll (by decide) template.slots)).1 (h (fillAll [] template.slots) (fillAll ['\''] template.slots))
    obtain ⟨piece, hmem⟩ := hstring
    exact innerQuotes_fillAll_ne hmem hquotes
  · exact (structuralSignature_eq_iff template (filling.unbroken_of_no_string hstring)
      (filling'.unbroken_of_no_string hstring)).2 (Filling.innerQuotes_eq_of_no_string hstring filling filling')

end Signature

/-! ## ASCII -/

section Ascii

attribute [local instance] Unicode.ascii

/-- Only capital letters change, into small ones. -/
theorem toLower_cases (c : Char) :
    c.toLower = c ∨ (65 ≤ c.toNat ∧ c.toNat ≤ 90 ∧ c.toLower.toNat = c.toNat + 32) := by
  unfold Char.toLower
  split
  · rename_i h
    have hbounds : 65 ≤ c.val.toNat ∧ c.val.toNat ≤ 90 := h
    refine .inr ⟨hbounds.1, hbounds.2, ?_⟩
    show (c.val + 32).toNat = c.val.toNat + 32
    rw [UInt32.toNat_add]
    exact Nat.mod_eq_of_lt (lt_of_le_of_lt (Nat.add_le_add_right hbounds.2 32) (by decide))
  · exact .inl rfl

theorem lowers_toLower (c : Char) : Lowers c [c.toLower] := by
  unfold Lowers
  split
  · rename_i hspecial
    rcases toLower_cases c with h | ⟨hle, hge, -⟩
    · rw [h]
    · rcases hspecial with rfl | rfl | hdigit
      · simp at hle
      · simp at hle
      · have hbounds : 48 ≤ c.val.toNat ∧ c.val.toNat ≤ 57 := by
          simpa [Char.isDigit, UInt32.le_iff_toNat_le] using hdigit
        exact absurd hbounds.2 (by have : 65 ≤ c.val.toNat := hle; omega)
  · rename_i hspecial
    rw [not_or, not_or] at hspecial
    have hne : ∀ q : Char, c ≠ q → q.toNat < 97 → q ∉ [c.toLower] := by
      intro q hq hsmall hmem
      rw [List.mem_singleton] at hmem
      rcases toLower_cases c with h | ⟨hle, _, h⟩
      · exact hq (hmem.trans h).symm
      · rw [hmem, h] at hsmall
        omega
    exact ⟨hne _ hspecial.1 (by decide), hne _ hspecial.2.1 (by decide)⟩

theorem lawfulUnicode_ascii : LawfulUnicode where
  lower_blocks s := by
    refine ⟨s.map fun c => [c.toLower],
      List.forall₂_map_right_iff.2 (List.forall₂_same.2 fun c _ => lowers_toLower c), ?_⟩
    rw [← List.flatMap_def]
    exact List.map_eq_flatMap
  lower_append_space _ _ := List.map_append
  isWord_quote := by decide
  isWord_space := by decide
  isDigit c h := by
    refine ⟨?_, h⟩
    show (c.isAlphanum || c == '_') = true
    rw [Char.isAlphanum, h, Bool.or_true, Bool.true_or]
  isSpace_space := by decide
  isSpace_letters := List.forall_mem_cons.2 ⟨by decide, List.forall_mem_singleton.2 (by decide)⟩

/-- ` select `. -/
def selectPiece : Piece := ⟨" select ".toList, rfl, rfl, by decide⟩

/-- A space. -/
def spacePiece : Piece := ⟨[' '], rfl, rfl, by decide⟩

/-- ` select ? `, for a literal of one kind. -/
def selectTemplate (kind : Kind) : Template := ⟨selectPiece, [(kind, spacePiece)]⟩

/-- ` select ` and a number. -/
def selectNumber (digits : List Char) (hne : digits ≠ []) (hdigits : ∀ c ∈ digits, c.isDigit) : List Char :=
  (selectTemplate .integer).fill (.cons (.integer digits hne hdigits) .nil)

/-- Two numbers give one signature. -/
theorem structuralSignature_numbers :
    structuralSignature (selectNumber ['1'] (by decide) (List.all_eq_true.1 rfl)) =
      structuralSignature (selectNumber ['2', '3'] (by decide) (List.all_eq_true.1 rfl)) := by
  have hstring : ¬(selectTemplate .integer).HasString := by
    rintro ⟨piece, hmem⟩
    simp [selectTemplate] at hmem
  exact (@structuralSignature_fill_iff Unicode.ascii lawfulUnicode_ascii (selectTemplate .integer)).1.2 hstring _ _

/-- ` select ` and a string. -/
def selectString (content : List Char) : List Char := (selectTemplate .string).fill (.cons (.string content) .nil)

theorem signatures_selectString :
    structuralSignature (selectString "a".toList) = "select S".toList ∧
      structuralSignature (selectString "it's".toList) = "select SS".toList ∧
      structuralSignature (selectString "a\nb".toList) = "select 'a b'".toList := by
  refine ⟨?_, ?_, ?_⟩ <;> decide +kernel

/-- **The strings `a` and `it's` are told apart**, and so is one with a line break. -/
theorem structuralSignature_strings :
    (¬∀ filling filling', structuralSignature ((selectTemplate .string).fill filling) =
      structuralSignature ((selectTemplate .string).fill filling')) ∧
    structuralSignature (selectString "a".toList) ≠ structuralSignature (selectString "it's".toList) ∧
    structuralSignature (selectString "a".toList) ≠ structuralSignature (selectString "a\nb".toList) := by
  obtain ⟨hplain, hquote, hbreak⟩ := signatures_selectString
  have hne : structuralSignature (selectString "a".toList) ≠ structuralSignature (selectString "it's".toList) := by
    rw [hplain, hquote]
    decide
  refine ⟨fun h => hne (h _ _), hne, ?_⟩
  rw [hplain, hbreak]
  decide

end Ascii

end Lsf.Tester
