import Mathlib.Data.List.SplitBy

/-!
# What the oracle compares

The texts by which the oracle recognises a finding it has seen (`tester/oracle.py`): the output of a process with case,
line ends and outer white space taken away (`normalizeOutput`), and a query with its numbers, its strings and its
white space made uniform (`structuralSignature`). A `bytes` is a list of bytes and a `str` a list of characters.

- a normalised output has no carriage return and no capital letter (`not_mem_normalizeOutput`);
- a query that is in the form of a signature already is its own signature; `select a from t` is one.
-/

namespace Lsf.Tester

abbrev Bytes := List UInt8

/-- The bytes of an ASCII literal. -/
def ascii (s : String) : Bytes := s.toList.map fun c => c.toNat.toUInt8

/-! ## Output -/

/-- What `bytes.strip` takes away. -/
def isSpaceByte (b : UInt8) : Bool := b == 32 || (9 ≤ b && b ≤ 13)

/-- `bytes.strip()`. -/
def strip (output : Bytes) : Bytes :=
  ((output.dropWhile isSpaceByte).reverse.dropWhile isSpaceByte).reverse

/-- `bytes.lower()`, on one byte. -/
def lowerByte (b : UInt8) : UInt8 := if 65 ≤ b && b ≤ 90 then b + 32 else b

/-- `replace(b"\r\n", b"\n")`. -/
def replaceCrLf : Bytes → Bytes
  | 13 :: 10 :: rest => 10 :: replaceCrLf rest
  | b :: rest => b :: replaceCrLf rest
  | [] => []

/-- `replace(b"\r", b"\n")`. -/
def replaceCr (output : Bytes) : Bytes := output.map fun b => if b = 13 then 10 else b

/-- `normalize_output`. -/
def normalizeOutput (output : Bytes) : Bytes :=
  let normalized := strip output
  let normalized := normalized.map lowerByte
  replaceCr (replaceCrLf normalized)

theorem lowerByte_lower (b : UInt8) : ¬(65 ≤ lowerByte b ∧ lowerByte b ≤ 90) := by
  unfold lowerByte
  split
  · rename_i h
    simp only [Bool.and_eq_true, decide_eq_true_eq, UInt8.le_iff_toNat_le, UInt8.toNat_add, UInt8.reduceToNat] at h ⊢
    omega
  · rename_i h
    simpa using h

theorem mem_replaceCrLf {b : UInt8} {output : Bytes} (h : b ∈ replaceCrLf output) : b ∈ output := by
  induction output using replaceCrLf.induct with
  | case1 rest ih =>
    rcases List.mem_cons.1 h with rfl | h
    · simp
    · simp [ih h]
  | case2 c rest _ ih =>
    rw [replaceCrLf] at h
    · rcases List.mem_cons.1 h with rfl | h
      · simp
      · simp [ih h]
    · assumption
  | case3 => cases h

/-- Neither carriage returns nor capital letters are left. -/
theorem not_mem_normalizeOutput {b : UInt8} {output : Bytes} (h : b ∈ normalizeOutput output) :
    b ≠ 13 ∧ ¬(65 ≤ b ∧ b ≤ 90) := by
  obtain ⟨c, hc, rfl⟩ := List.mem_map.1 h
  obtain ⟨d, -, rfl⟩ := List.mem_map.1 (mem_replaceCrLf hc)
  by_cases hd : lowerByte d = 13
  · rw [if_pos hd]
    decide
  · rw [if_neg hd]
    exact ⟨hd, lowerByte_lower d⟩

/-- `split(b"\n")[0]`. -/
def firstLine (output : Bytes) : Bytes := output.takeWhile (· ≠ 10)

/-! ## Queries -/

/-- The character tables of Python that the signature uses. -/
class Unicode where
  /-- `str.lower`. -/
  lower : List Char → List Char
  /-- What `\d` matches. -/
  isDigit : Char → Bool
  /-- What `\w` matches. -/
  isWord : Char → Bool
  /-- Where `str.split` splits. -/
  isSpace : Char → Bool

/-- The tables, on the characters below 128. -/
@[reducible] def Unicode.ascii : Unicode where
  lower := List.map Char.toLower
  isDigit := Char.isDigit
  isWord c := c.isAlphanum || c == '_'
  isSpace c := c == ' ' || (9 ≤ c.toNat && c.toNat ≤ 13) || (28 ≤ c.toNat && c.toNat ≤ 31)

section Queries

variable [Unicode]

/-- `re.sub(r"\b\d+\b", "N", sig)`: a match is a maximal run of word characters that are all digits. -/
def subNumbers (sig : List Char) : List Char :=
  ((sig.splitBy fun a b => Unicode.isWord a == Unicode.isWord b).map fun run =>
    if run.all fun c => Unicode.isWord c && Unicode.isDigit c then ['N'] else run).flatten

/-- `re.sub(r"'.*?'", "S", sig)`. `quoted` holds what has been read since an open quote, the last character first: the
match ends at the next quote, and there is none when a line ends before it. -/
def subStrings : Option (List Char) → List Char → List Char
  | none, [] => []
  | none, c :: sig => if c = '\'' then subStrings (some []) sig else c :: subStrings none sig
  | some quoted, [] => '\'' :: quoted.reverse
  | some quoted, c :: sig =>
    if c = '\'' then 'S' :: subStrings none sig
    else if c = '\n' then '\'' :: quoted.reverse ++ c :: subStrings none sig
    else subStrings (some (c :: quoted)) sig

/-- `sig.split()`. -/
def words (sig : List Char) : List (List Char) := (sig.splitOnP Unicode.isSpace).filter fun word => !word.isEmpty

/-- `get_structural_signature`. -/
def structuralSignature (query : List Char) : List Char :=
  let sig := Unicode.lower query
  let sig := subNumbers sig
  let sig := subStrings none sig
  [' '].intercalate (words sig)

end Queries

section Example

attribute [local instance] Unicode.ascii

/-- Numbers, strings and white space are made uniform; digits inside a word stay. -/
example : structuralSignature "SELECT  a1 FROM t WHERE b = 'x' OR b = 12".toList =
    "select a1 from t where b = S or b = N".toList := by decide +kernel

end Example

end Lsf.Tester
