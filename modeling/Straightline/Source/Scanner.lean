import Straightline.Source.Diagnostic

/-! Reading words. Blanks and comments are skipped, a word is the longest run that can be one, and a
word that cannot be read gives up the rest of its line: the end of that line comes in its place and
carries what was wrong. A last line without an end is given one. -/
namespace Straightline.Source

def isBlank (c : Char) : Bool := c == ' ' || c == '\t' || c == '\r'

def toLineEnd (cs : List Char) : List Char := cs.dropWhile (· != '\n')

def skipComment : List Char → List Char
  | '/' :: '/' :: cs => toLineEnd cs
  | cs => cs

def skipBlanks (cs : List Char) : List Char := skipComment (cs.dropWhile isBlank)

def decimal (digits : List Char) : Nat :=
  digits.foldl (fun n d => 10 * n + (d.toNat - '0'.toNat)) 0

def word? (n : Nat) : Option Word :=
  if n < 4294967296 then some (UInt32.ofNat n) else none

def readConstant (digits : List Char) : Except LexicalError Lexeme :=
  match word? (decimal digits) with
  | some v => .ok (.constant v)
  | none => .error (.constantTooLarge digits)

def readRegister (word digits : List Char) : Except LexicalError Lexeme :=
  if digits.isEmpty || !digits.all Char.isDigit then .error (.registerWithoutDigits word)
  else match Reg.ofNat? .source (decimal digits) with
    | some r => .ok (.register r)
    | none => .error (.registerTooLarge word)

def readWord (word : List Char) : Except LexicalError Lexeme :=
  match Opcode.ofMnemonic? (String.ofList word) with
  | some o => .ok (.op o)
  | none =>
    match word with
    | 'r' :: digits => readRegister word digits
    | _ => .error (.unknownWord word)

inductive Reading where
  | lexeme (l : Lexeme) (rest : List Char)
  | bad (error : LexicalError)
  | lineEnd (rest : List Char)
  | textEnd
  deriving DecidableEq, Repr

def Reading.ofExcept (rest : List Char) : Except LexicalError Lexeme → Reading
  | .ok l => lexeme l rest
  | .error e => bad e

def readHead : List Char → Reading
  | [] => .textEnd
  | '\n' :: rest => .lineEnd rest
  | ',' :: rest => .lexeme .comma rest
  | '=' :: '>' :: rest => .lexeme .into rest
  | '=' :: _ => .bad .loneEquals
  | '/' :: _ => .bad .straySlash
  | c :: rest =>
    if c.isDigit then
      .ofExcept (rest.dropWhile Char.isDigit) (readConstant (c :: rest.takeWhile Char.isDigit))
    else if c.isAlpha then
      .ofExcept (rest.dropWhile Char.isAlphanum) (readWord (c :: rest.takeWhile Char.isAlphanum))
    else .bad (.invalidChar c)

def read (cs : List Char) : Reading := readHead (skipBlanks cs)

inductive Item where
  | lexeme (line : Nat) (l : Lexeme)
  | lineEnd (line : Nat) (problem : Option LexicalError)
  | textEnd (line : Nat)
  deriving DecidableEq, Repr

namespace Item

def token : Item → Token
  | lexeme line l => .ofLexeme line l
  | lineEnd line _ => {category := .newline, line}
  | textEnd line => {category := .endFile, line}

def diagnostic? : Item → Option Diagnostic
  | lineEnd line (some e) => some ⟨line, .lexical e⟩
  | lexeme _ _ | lineEnd _ none | textEnd _ => none

end Item

structure Scanner where
  rest : List Char
  line : Nat := 1
  atLineStart : Bool := false
  finished : Bool := false
  pending : List Diagnostic := []
  deriving DecidableEq, Repr

namespace Scanner

def ofText (text : String) : Scanner := {rest := text.toList}

def endLine (s : Scanner) (rest : List Char) (problem : Option LexicalError) : Item × Scanner :=
  (.lineEnd s.line problem, {s with rest, line := s.line + 1, atLineStart := true})

def item (s : Scanner) : Item × Scanner :=
  match read s.rest with
  | .lexeme l rest => (.lexeme s.line l, {s with rest, atLineStart := false})
  | .bad e => s.endLine ((toLineEnd s.rest).drop 1) (some e)
  | .lineEnd rest => s.endLine rest none
  | .textEnd =>
    if s.atLineStart then (.textEnd s.line, {s with rest := [], atLineStart := false})
    else s.endLine [] none

/-- The next token. Past the end of the text, ends of lines and of the text alternate. -/
def token (s : Scanner) : Token × Scanner :=
  let (i, s') := s.item
  (i.token, {s' with pending := s'.pending ++ i.diagnostic?.toList})

def next? (s : Scanner) : Option Token × Scanner :=
  if s.finished then (none, s) else
    let (t, s') := s.token
    (some t, {s' with finished := t.category == .endFile})

def takeDiagnostics (s : Scanner) : List Diagnostic × Scanner :=
  (s.pending, {s with pending := []})

end Scanner

theorem toLineEndLength (cs : List Char) : (toLineEnd cs).length ≤ cs.length :=
  List.IsSuffix.length_le (List.dropWhile_suffix _)

theorem skipCommentLength (cs : List Char) : (skipComment cs).length ≤ cs.length := by
  unfold skipComment
  split
  · rename_i rest
    have shorter := toLineEndLength rest
    simp only [List.length_cons]
    omega
  · exact Nat.le_refl _

theorem skipBlanksLength (cs : List Char) : (skipBlanks cs).length ≤ cs.length :=
  Nat.le_trans (skipCommentLength _) (List.IsSuffix.length_le (List.dropWhile_suffix _))

theorem dropWhileShorter (p : Char → Bool) (c : Char) (cs : List Char) :
    (cs.dropWhile p).length < (c :: cs).length :=
  Nat.lt_succ_of_le (List.IsSuffix.length_le (List.dropWhile_suffix _))

def Reading.rest? : Reading → Option (List Char)
  | lexeme _ rest | lineEnd rest => some rest
  | bad _ | textEnd => none

theorem ofExceptRest {rest cs : List Char} {r : Except LexicalError Lexeme}
    (left : (Reading.ofExcept rest r).rest? = some cs) : cs = rest := by
  cases r with
  | ok l => exact (Option.some.inj left).symm
  | error e => cases left

theorem readHeadShorter {cs rest : List Char} (left : (readHead cs).rest? = some rest) :
    rest.length < cs.length := by
  unfold readHead at left
  split at left
  case h_7 c cs _ _ _ _ _ =>
    split at left
    · rw [ofExceptRest left]
      exact dropWhileShorter _ _ _
    · split at left
      · rw [ofExceptRest left]
        exact dropWhileShorter _ _ _
      · cases left
  all_goals cases left
  all_goals simp only [List.length_cons]; omega

theorem readShorter {cs rest : List Char} (left : (read cs).rest? = some rest) :
    rest.length < cs.length :=
  Nat.lt_of_lt_of_le (readHeadShorter left) (skipBlanksLength cs)

theorem readBad {cs : List Char} {e : LexicalError} (failed : read cs = .bad e) :
    0 < cs.length := by
  cases cs with
  | nil => cases failed
  | cons c cs => exact Nat.zero_lt_succ _

namespace Scanner

def budget (s : Scanner) : Nat := 2 * s.rest.length + if s.atLineStart then 0 else 1

theorem itemBudget {s s' : Scanner} {i : Item} (step : s.item = (i, s'))
    (going : ∀ line, i ≠ .textEnd line) : s'.budget < s.budget := by
  unfold item at step
  split at step
  · rename_i l rest found
    cases step
    have shorter : rest.length < s.rest.length := readShorter (by rw [found]; rfl)
    simp only [budget]
    split <;> omega
  · rename_i e found
    cases step
    have some := readBad found
    have shorter := toLineEndLength s.rest
    simp only [budget, List.length_drop]
    split <;> omega
  · rename_i rest found
    cases step
    have shorter : rest.length < s.rest.length := readShorter (by rw [found]; rfl)
    simp only [budget]
    split <;> omega
  · split at step
    · cases step
      exact absurd rfl (going _)
    · rename_i inside
      cases step
      simp [budget, inside]

def items (s : Scanner) : List Item :=
  match _ : s.item with
  | (.textEnd line, _) => [.textEnd line]
  | (.lexeme line l, s') => .lexeme line l :: s'.items
  | (.lineEnd line problem, s') => .lineEnd line problem :: s'.items
termination_by s.budget
decreasing_by all_goals rename_i taken; exact itemBudget taken nofun

end Scanner

def items (text : String) : List Item := (Scanner.ofText text).items

def tokens (text : String) : List Token := (items text).map Item.token

def lexicalDiagnostics (text : String) : List Diagnostic := (items text).filterMap Item.diagnostic?

end Straightline.Source
