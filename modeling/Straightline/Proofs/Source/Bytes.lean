import Straightline.Proofs.Source.LineGrammar

/-! Reading words off bytes. The text is there as its UTF-8 bytes, and a scanner that steps over single
bytes, cuts words out between two of its positions and counts lines in 32 bits could cut through a
character or run out of numbers. It does neither: it stops only between characters, so it gives the
tokens that are read from the characters. -/
namespace Straightline.Source

def bytes (text : String) : List UInt8 := text.toByteArray.data.toList

def encode (cs : List Char) : List UInt8 := cs.flatMap String.utf8EncodeChar

inductive Mishap where
  | offBoundary (start stop : Nat)
  | lineOverflow
  | digitUnderflow
  deriving DecidableEq, Repr

def partAt? : List Char → Nat → Option (List Char × List Char)
  | cs, 0 => some ([], cs)
  | [], _ + 1 => none
  | c :: cs, n + 1 =>
    if c.utf8Size ≤ n + 1 then (partAt? cs (n + 1 - c.utf8Size)).map fun parts => (c :: parts.1, parts.2)
    else none

def slice? (text : String) (start stop : Nat) : Option (List Char) := do
  let (_, rest) ← partAt? text.toList start
  let (word, _) ← partAt? rest (stop - start)
  if start ≤ stop then some word else none

def slice (text : String) (start stop : Nat) : Except Mishap (List Char) :=
  match slice? text start stop with
  | some word => .ok word
  | none => .error (.offBoundary start stop)

def number (n : Nat) : List Char → Except Mishap (Option Nat)
  | [] => .ok (some n)
  | d :: ds =>
    if d.toNat < '0'.toNat then .error .digitUnderflow
    else if 10 * n + (d.toNat - '0'.toNat) < 4294967296 then
      number (10 * n + (d.toNat - '0'.toNat)) ds
    else .ok none

def constantOf (digits : List Char) : Except Mishap (Except LexicalError Lexeme) := do
  match ← number 0 digits with
  | some n => .ok (.ok (.constant (UInt32.ofNat n)))
  | none => .ok (.error (.constantTooLarge digits))

def registerOf (word digits : List Char) : Except Mishap (Except LexicalError Lexeme) :=
  if digits.isEmpty || !digits.all Char.isDigit then .ok (.error (.registerWithoutDigits word)) else do
    match (← number 0 digits).bind (Reg.ofNat? .source) with
    | some r => .ok (.ok (.register r))
    | none => .ok (.error (.registerTooLarge word))

def wordOf (word : List Char) : Except Mishap (Except LexicalError Lexeme) :=
  match Opcode.ofMnemonic? (String.ofList word) with
  | some o => .ok (.ok (.op o))
  | none =>
    if word.head? = some 'r' then registerOf word (word.drop 1)
    else .ok (.error (.unknownWord word))

structure ByteScanner where
  position : Nat := 0
  line : Nat := 1
  atLineStart : Bool := false
  finished : Bool := false
  pending : List Diagnostic := []
  deriving DecidableEq, Repr

namespace ByteScanner

def peek (s : ByteScanner) (text : String) (offset : Nat) : Option Char :=
  (bytes text)[s.position + offset]?.map Char.ofUInt8

def runEnd (s : ByteScanner) (text : String) (p : Char → Bool) : Nat :=
  s.position + (((bytes text).drop s.position).takeWhile fun b => p (.ofUInt8 b)).length

def take (s : ByteScanner) (text : String) (p : Char → Bool) :
    Except Mishap (List Char × ByteScanner) := do
  let word ← slice text s.position (s.runEnd text p)
  .ok (word, {s with position := s.runEnd text p})

def atLineEnd (s : ByteScanner) (text : String) : ByteScanner :=
  {s with position := s.runEnd text (· != '\n')}

theorem peekSome {s : ByteScanner} {text : String} {c : Char} (found : s.peek text 0 = some c) :
    ∃ b more, (bytes text).drop s.position = b :: more ∧ Char.ofUInt8 b = c := by
  obtain ⟨b, byte, same⟩ := Option.map_eq_some_iff.mp found
  obtain ⟨less, rfl⟩ := List.getElem?_eq_some_iff.mp byte
  exact ⟨_, _, List.drop_eq_getElem_cons less, same⟩

theorem skipsOn {s : ByteScanner} {text : String} (found : s.peek text 0 = some '/') :
    s.position < (s.atLineEnd text).position ∧ s.position < (bytes text).length := by
  obtain ⟨b, more, rest, slash⟩ := peekSome found
  have shorter := congrArg List.length rest
  rw [List.length_drop, List.length_cons] at shorter
  refine ⟨?_, by omega⟩
  simp [atLineEnd, runEnd, rest, slash]

def skip (s : ByteScanner) (text : String) : Except Mishap ByteScanner :=
  match slice text s.position (s.runEnd text isBlank) with
  | .error e => .error e
  | .ok _ =>
    let s' := {s with position := s.runEnd text isBlank}
    if _ : s'.peek text 0 = some '/' ∧ s'.peek text 1 = some '/' then (s'.atLineEnd text).skip text
    else .ok s'
termination_by (bytes text).length - s.position
decreasing_by
  rename_i comment
  have after : s.position ≤ s.runEnd text isBlank := Nat.le_add_right _ _
  obtain ⟨on, inside⟩ := skipsOn comment.1
  exact Nat.sub_lt_sub_left (Nat.lt_of_le_of_lt after inside) (Nat.lt_of_le_of_lt after on)

def newline (s : ByteScanner) (text : String) : Except Mishap (Token × ByteScanner) :=
  let position := if s.peek text 0 = some '\n' then s.position + 1 else s.position
  if s.line + 1 < 4294967296 then
    .ok ({category := .newline, line := s.line}, {s with position, line := s.line + 1})
  else .error .lineOverflow

def refuse (s : ByteScanner) (text : String) (e : LexicalError) : Except Mishap (Token × ByteScanner) :=
  let noted : ByteScanner := {s with pending := s.pending ++ [⟨s.line, .lexical e⟩]}
  (noted.atLineEnd text).newline text

def answer (s : ByteScanner) (text : String) :
    Except LexicalError Lexeme → Except Mishap (Token × ByteScanner)
  | .ok l => .ok (.ofLexeme s.line l, s)
  | .error e => s.refuse text e

def recognise (s : ByteScanner) (text : String) : Except Mishap (Token × ByteScanner) :=
  match s.peek text 0 with
  | none =>
    if s.atLineStart then .ok ({category := .endFile, line := s.line}, s) else s.newline text
  | some '\n' => s.newline text
  | some '/' => s.refuse text .straySlash
  | some ',' => .ok (.ofLexeme s.line .comma, {s with position := s.position + 1})
  | some '=' =>
    if s.peek text 1 = some '>' then .ok (.ofLexeme s.line .into, {s with position := s.position + 2})
    else s.refuse text .loneEquals
  | some c =>
    if c.isDigit then do
      let (digits, s) ← s.take text Char.isDigit
      s.answer text (← constantOf digits)
    else if c.isAlpha then do
      let (word, s) ← s.take text Char.isAlphanum
      s.answer text (← wordOf word)
    else do
      let rest ← slice text s.position (bytes text).length
      s.refuse text (.invalidChar (rest.head?.getD '?'))

def token (s : ByteScanner) (text : String) : Except Mishap (Token × ByteScanner) := do
  let s ← s.skip text
  let (t, s) ← s.recognise text
  .ok (t, {s with atLineStart := t.category == .newline})

def next (s : ByteScanner) (text : String) : Except Mishap (Option Token × ByteScanner) :=
  if s.finished then .ok (none, s) else do
    let (t, s) ← s.token text
    .ok (some t, {s with finished := t.category == .endFile})

end ByteScanner

section
variable {text : String} {cs rest word : List Char} {c : Char} {b : UInt8} {n : Nat} {p : Char → Bool}

theorem bytesEncode (text : String) : bytes text = encode text.toList := by
  have same : text.toByteArray = text.toList.utf8Encode := by
    rw [← String.toByteArray_ofList, String.ofList_toList]
  rw [bytes, same]
  exact List.toList_data_toByteArray

theorem encodeAppend (cs rest : List Char) : encode (cs ++ rest) = encode cs ++ encode rest :=
  List.flatMap_append

theorem encodeCons (c : Char) (cs : List Char) : encode (c :: cs) = String.utf8EncodeChar c ++ encode cs :=
  List.flatMap_cons

theorem byteNumber (b : UInt8) : (Char.ofUInt8 b).toNat = b.toNat := UInt8.toNat_toUInt32 b

theorem asciiByte (ascii : c.toNat < 128) :
    ∃ b, String.utf8EncodeChar c = [b] ∧ Char.ofUInt8 b = c := by
  have size : c.utf8Size = 1 := by
    rw [Char.utf8Size_eq_one_iff, UInt32.le_iff_toNat_le]
    exact Nat.le_of_lt_succ ascii
  refine ⟨c.val.toUInt8, String.utf8EncodeChar_eq_singleton size, Char.toNat_inj.mp ?_⟩
  rw [byteNumber, UInt32.toNat_toUInt8]
  exact Nat.mod_eq_of_lt (Nat.lt_trans ascii (by decide))

theorem wideBytes (wide : 128 ≤ c.toNat) : ∀ b ∈ String.utf8EncodeChar c, 128 ≤ b.toNat := by
  have value : c.val.toNat = c.toNat := rfl
  have high (k : Nat) (low : 128 ≤ k) (less : k < 256) : 128 ≤ (UInt8.ofNat k).toNat := by
    rwa [UInt8.toNat_ofNat_of_lt' less]
  intro b inside
  delta String.utf8EncodeChar at inside
  dsimp only at inside
  rw [if_neg (by omega)] at inside
  split at inside
  · simp only [List.mem_cons, List.not_mem_nil, or_false] at inside
    rcases inside with rfl | rfl
    all_goals exact high _ (by omega) (by omega)
  · split at inside
    all_goals simp only [List.mem_cons, List.not_mem_nil, or_false] at inside
    · rcases inside with rfl | rfl | rfl
      all_goals exact high _ (by omega) (by omega)
    · rcases inside with rfl | rfl | rfl | rfl
      all_goals exact high _ (by omega) (by omega)

/-- Whether `p` holds of a character shows in its bytes: in all of them if it does, and in the first if
it does not. -/
def Bytewise (p : Char → Bool) : Prop :=
  ∀ c, (p c = true ∧ ∀ b ∈ String.utf8EncodeChar c, p (.ofUInt8 b) = true) ∨
    (p c = false ∧ ∃ b bs, String.utf8EncodeChar c = b :: bs ∧ p (.ofUInt8 b) = false)

theorem bytewiseOf {answer : Bool} (wide : ∀ c : Char, 128 ≤ c.toNat → p c = answer) : Bytewise p := by
  intro c
  rcases Nat.lt_or_ge c.toNat 128 with ascii | beyond
  · obtain ⟨b, single, same⟩ := asciiByte ascii
    cases holds : p c with
    | true => exact .inl ⟨rfl, by simp [single, same, holds]⟩
    | false => exact .inr ⟨rfl, b, [], single, same ▸ holds⟩
  · have all : ∀ b ∈ String.utf8EncodeChar c, p (.ofUInt8 b) = answer := fun b inside =>
      wide _ (byteNumber b ▸ wideBytes beyond b inside)
    cases answer with
    | true => exact .inl ⟨wide c beyond, all⟩
    | false =>
      obtain ⟨b, bs, first⟩ := List.exists_cons_of_ne_nil (String.utf8EncodeChar_ne_nil (c := c))
      exact .inr ⟨wide c beyond, b, bs, first, all b (first ▸ List.mem_cons_self)⟩

theorem takeWhileEncode (bytewise : Bytewise p) (cs : List Char) :
    (encode cs).takeWhile (fun b => p (.ofUInt8 b)) = encode (cs.takeWhile p) := by
  induction cs with
  | nil => rfl
  | cons c cs ih =>
    rw [encodeCons]
    rcases bytewise c with ⟨holds, all⟩ | ⟨fails, b, bs, first, off⟩
    · rw [List.takeWhile_append_of_pos all, ih, List.takeWhile_cons_of_pos holds, encodeCons]
    · rw [first, List.cons_append, List.takeWhile_cons_of_neg (by simp [off]),
        List.takeWhile_cons_of_neg (by simp [fails])]
      rfl

theorem wideDigit (wide : 128 ≤ c.toNat) : c.isDigit = false := by
  refine Bool.eq_false_iff.mpr fun digit => ?_
  have below : c.toNat ≤ 57 := (Char.isDigit_iff_toNat.mp digit).2
  omega

theorem wideAlpha (wide : 128 ≤ c.toNat) : c.isAlpha = false := by
  refine Bool.eq_false_iff.mpr fun letter => ?_
  rcases Bool.or_eq_true_iff.mp letter with upper | lower
  · have below : c.val.toNat ≤ 90 := UInt32.le_iff_toNat_le.mp (of_decide_eq_true upper).2
    exact absurd wide (Nat.not_le_of_lt (Nat.lt_of_le_of_lt below (by decide)))
  · have last : c.val ≤ 'z'.val := of_decide_eq_true (Bool.and_eq_true_iff.mp lower).2
    have below : c.val.toNat ≤ 122 := UInt32.le_iff_toNat_le.mp last
    exact absurd wide (Nat.not_le_of_lt (Nat.lt_of_le_of_lt below (by decide)))

theorem bytewiseBlank : Bytewise isBlank := by
  refine bytewiseOf fun c wide => Bool.eq_false_iff.mpr fun blank => ?_
  rcases isBlankIff.mp blank with rfl | rfl | rfl
  all_goals exact absurd wide (by decide)

theorem bytewiseDigit : Bytewise Char.isDigit := bytewiseOf fun _ wide => wideDigit wide

theorem bytewiseAlphanum : Bytewise Char.isAlphanum :=
  bytewiseOf fun _ wide => Bool.or_eq_false_iff.mpr ⟨wideAlpha wide, wideDigit wide⟩

theorem bytewiseLine : Bytewise (· != '\n') := by
  refine bytewiseOf fun c wide => bne_iff_ne.mpr ?_
  rintro rfl
  exact absurd wide (by decide)

theorem numberOk {ds : List Char} (all : ∀ d ∈ ds, d.isDigit = true) (fits : n < 4294967296) :
    let value := ds.foldl (fun n d => 10 * n + (d.toNat - '0'.toNat)) n
    number n ds = .ok (if value < 4294967296 then some value else none) := by
  have grows (ds : List Char) (n : Nat) :
      n ≤ ds.foldl (fun n d => 10 * n + (d.toNat - '0'.toNat)) n := by
    induction ds generalizing n with
    | nil => exact Nat.le_refl n
    | cons d ds ih =>
      have step : n ≤ 10 * n + (d.toNat - '0'.toNat) := by omega
      exact Nat.le_trans step (ih _)
  induction ds generalizing n with
  | nil => simp [number, fits]
  | cons d ds ih =>
    obtain ⟨digit, all⟩ := List.forall_mem_cons.mp all
    have least : ¬ d.toNat < '0'.toNat := Nat.not_lt.mpr (Char.isDigit_iff_toNat.mp digit).1
    rw [number, if_neg least, List.foldl_cons]
    split
    · rename_i less
      exact ih all less
    · rename_i large
      have larger := grows ds (10 * n + (d.toNat - '0'.toNat))
      simp only
      rw [if_neg (by omega)]

theorem constantRead {digits : List Char} (all : ∀ d ∈ digits, d.isDigit = true) :
    constantOf digits = .ok (readConstant digits) := by
  rw [constantOf, numberOk all (by decide), readConstant, word?, decimal]
  split <;> rfl

theorem registerRead (word digits : List Char) :
    registerOf word digits = .ok (readRegister word digits) := by
  unfold registerOf readRegister
  cases written : digits.isEmpty || !digits.all Char.isDigit with
  | true => rfl
  | false =>
    have all : ∀ d ∈ digits, d.isDigit = true := by
      have every := (Bool.or_eq_false_iff.mp written).2
      rwa [Bool.not_eq_false', List.all_eq_true] at every
    simp only [Bool.false_eq_true, if_false]
    by_cases less : decimal digits < 4294967296
    · have named : number 0 digits = .ok (some (decimal digits)) := by
        rw [numberOk all (by decide)]
        exact congrArg Except.ok (if_pos less)
      rw [named]
      cases found : Reg.ofNat? .source (decimal digits) with
      | some r => simp only [bind, Except.bind, Option.bind_some, found]
      | none => simp only [bind, Except.bind, Option.bind_some, found]
    · have unnamed : number 0 digits = .ok none := by
        rw [numberOk all (by decide)]
        exact congrArg Except.ok (if_neg less)
      have large : Reg.ofNat? .source (decimal digits) = none :=
        dif_neg fun below => less (Nat.lt_trans below (by decide))
      rw [unnamed, large]
      rfl

theorem wordRead (word : List Char) : wordOf word = .ok (readWord word) := by
  unfold wordOf readWord
  cases Opcode.ofMnemonic? (String.ofList word) with
  | some o => rfl
  | none =>
    cases word with
    | nil => rfl
    | cons c digits =>
      by_cases register : c = 'r'
      · subst register
        exact registerRead ('r' :: digits) digits
      · have other : (c :: digits).head? ≠ some 'r' := fun same => register (Option.some.inj same)
        dsimp only
        rw [if_neg other]
        split
        · rename_i same
          exact absurd (List.cons.inj same).1 register
        · rfl

theorem countEncode (cs : List Char) : (encode cs).count 10 = cs.count '\n' := by
  induction cs with
  | nil => rfl
  | cons c cs ih =>
    rw [encodeCons, List.count_append, ih, List.count_cons, Nat.add_comm]
    congr 1
    by_cases line : c = '\n'
    · subst line
      rfl
    · have absent : 10 ∉ String.utf8EncodeChar c := by
        intro inside
        rcases Nat.lt_or_ge c.toNat 128 with ascii | wide
        · obtain ⟨b, single, same⟩ := asciiByte ascii
          rw [single, List.mem_singleton] at inside
          exact line (by rw [← same, ← inside]; rfl)
        · exact absurd (wideBytes wide 10 inside) (by decide)
      simp [List.count_eq_zero.mpr absent, line]

theorem partAtEncode (cs rest : List Char) : partAt? (cs ++ rest) (encode cs).length = some (cs, rest) := by
  induction cs with
  | nil => cases rest <;> rfl
  | cons c cs ih =>
    have size : (encode (c :: cs)).length = c.utf8Size + (encode cs).length := by
      rw [encodeCons, List.length_append, String.length_utf8EncodeChar]
    obtain ⟨k, more⟩ : ∃ k, c.utf8Size = k + 1 := Nat.exists_eq_add_one.mpr c.utf8Size_pos
    have form : (encode (c :: cs)).length = k + (encode cs).length + 1 := by omega
    have left : k + (encode cs).length + 1 - c.utf8Size = (encode cs).length := by omega
    rw [List.cons_append, form, partAt?, if_pos (by omega), left, ih]
    rfl

def At (text : String) (n : Nat) (rest : List Char) : Prop :=
  ∃ done, text.toList = done ++ rest ∧ n = (encode done).length

theorem atStart (text : String) : At text 0 text.toList := ⟨[], rfl, rfl⟩

theorem atAdvance (here : At text n (word ++ rest)) : At text (n + (encode word).length) rest := by
  obtain ⟨done, split, rfl⟩ := here
  exact ⟨done ++ word, by rw [split, List.append_assoc], by rw [encodeAppend, List.length_append]⟩

theorem atNext (here : At text n (c :: rest)) (ascii : c.toNat < 128) : At text (n + 1) rest := by
  obtain ⟨b, single, -⟩ := asciiByte ascii
  obtain ⟨done, split, rfl⟩ := here
  refine ⟨done ++ [c], by rw [split, List.append_assoc, List.singleton_append], ?_⟩
  rw [encodeAppend, List.length_append, encodeCons, single]
  rfl

theorem atDrop (here : At text n rest) : (bytes text).drop n = encode rest := by
  obtain ⟨done, split, rfl⟩ := here
  rw [bytesEncode, split, encodeAppend, List.drop_left]

theorem atCount (here : At text n rest) :
    ((bytes text).take n).count 10 + rest.count '\n' = text.toList.count '\n' := by
  obtain ⟨done, split, rfl⟩ := here
  rw [bytesEncode, split, encodeAppend, List.take_left, countEncode, List.count_append]

theorem sliceWord (here : At text n (word ++ rest)) :
    slice text n (n + (encode word).length) = .ok word := by
  obtain ⟨done, split, rfl⟩ := here
  have found : slice? text (encode done).length ((encode done).length + (encode word).length) = some word := by
    rw [slice?, split, partAtEncode]
    simp only [bind, Option.bind, Nat.add_sub_cancel_left, partAtEncode, Nat.le_add_right, if_true]
  rw [slice, found]

theorem sliceAll (here : At text n rest) : slice text n (bytes text).length = .ok rest := by
  obtain ⟨done, split, rfl⟩ := here
  have whole : At text (encode done).length (rest ++ []) := ⟨done, by rw [List.append_nil, split], rfl⟩
  rw [bytesEncode, split, encodeAppend, List.length_append]
  exact sliceWord whole

theorem lineEndHead {cs : List Char} (first : c ∈ (toLineEnd cs).head?) : c = '\n' := by
  induction cs with
  | nil => cases first
  | cons d cs ih =>
    by_cases line : d = '\n'
    · subst line
      exact (Option.some.inj first).symm
    · refine ih ?_
      rwa [toLineEnd, List.dropWhile_cons_of_pos (by simpa using line)] at first

theorem runWithin (stops : p '\n' = false) (cs : List Char) : '\n' ∉ cs.takeWhile p := by
  intro inside
  have holds := List.mem_takeWhile_imp inside
  rw [stops] at holds
  cases holds

theorem toLineEndRun (stops : p '\n' = false) (cs : List Char) :
    toLineEnd (cs.dropWhile p) = toLineEnd cs := by
  have before : ∀ c ∈ cs.takeWhile p, (c != '\n') = true := fun c inside =>
    bne_iff_ne.mpr fun line => runWithin stops cs (line ▸ inside)
  calc toLineEnd (cs.dropWhile p)
      _ = toLineEnd (cs.takeWhile p ++ cs.dropWhile p) := (List.dropWhile_append_of_pos before).symm
      _ = toLineEnd cs := by rw [List.takeWhile_append_dropWhile]

theorem toLineEndSkip (cs : List Char) : toLineEnd (skipBlanks cs) = toLineEnd cs := by
  rw [← toLineEndRun (p := isBlank) (by decide) cs, skipBlanks]
  generalize cs.dropWhile isBlank = ds
  fun_cases skipComment ds with
  | case1 more => exact toLineEndRun (p := (· != '\n')) (by decide) more
  | case2 => rfl

theorem readHeadEnd {cs : List Char} (ended : readHead cs = .textEnd) : cs = [] := by
  have goes {rest : List Char} (r : Except LexicalError Lexeme) : Reading.ofExcept rest r ≠ .textEnd := by
    cases r <;> intro same <;> cases same
  unfold readHead at ended
  split at ended
  case h_1 => rfl
  case h_7 =>
    split at ended
    · exact absurd ended (goes _)
    · split at ended
      · exact absurd ended (goes _)
      · contradiction
  all_goals contradiction

theorem lexemeCategory (n : Nat) (l : Lexeme) :
    (Token.ofLexeme n l).category ≠ .newline ∧ (Token.ofLexeme n l).category ≠ .endFile := by
  cases l with
  | op o =>
    change Category.ofOpcode o ≠ .newline ∧ Category.ofOpcode o ≠ .endFile
    cases o <;> decide
  | constant v =>
    change Category.const ≠ .newline ∧ Category.const ≠ .endFile
    decide
  | register r =>
    change Category.reg ≠ .newline ∧ Category.reg ≠ .endFile
    decide
  | comma =>
    change Category.comma ≠ .newline ∧ Category.comma ≠ .endFile
    decide
  | into =>
    change Category.into ≠ .newline ∧ Category.into ≠ .endFile
    decide

end

namespace ByteScanner

variable {text : String} {rest : List Char} {c : Char} {s : ByteScanner} {p : Char → Bool}

theorem peekAt (here : At text s.position rest) (k : Nat) :
    s.peek text k = (encode rest)[k]?.map Char.ofUInt8 := by
  rw [peek, ← List.getElem?_drop, atDrop here]

theorem peekAscii (here : At text s.position (c :: rest)) (ascii : c.toNat < 128) :
    s.peek text 0 = some c := by
  obtain ⟨b, single, same⟩ := asciiByte ascii
  rw [peekAt here, encodeCons, single]
  exact congrArg some same

theorem peekWide (here : At text s.position (c :: rest)) (wide : 128 ≤ c.toNat) :
    ∃ d, s.peek text 0 = some d ∧ 128 ≤ d.toNat := by
  obtain ⟨b, bs, first⟩ := List.exists_cons_of_ne_nil (String.utf8EncodeChar_ne_nil (c := c))
  refine ⟨.ofUInt8 b, ?_, byteNumber b ▸ wideBytes wide b (first ▸ List.mem_cons_self)⟩
  rw [peekAt here, encodeCons, first]
  rfl

theorem peekHead (here : At text s.position rest) (ascii : c.toNat < 128) :
    s.peek text 0 = some c ↔ rest.head? = some c := by
  cases rest with
  | nil => simp [peekAt here, encode]
  | cons d rest =>
    rcases Nat.lt_or_ge d.toNat 128 with narrow | wide
    · rw [peekAscii here narrow, List.head?_cons]
    · obtain ⟨e, seen, beyond⟩ := peekWide here wide
      have apart : e ≠ c ∧ d ≠ c := ⟨by rintro rfl; omega, by rintro rfl; omega⟩
      simp [seen, apart]

theorem peekSecond {d : Char} (here : At text s.position (d :: rest)) (narrow : d.toNat < 128)
    (ascii : c.toNat < 128) : s.peek text 1 = some c ↔ rest.head? = some c := by
  have next : At text ({s with position := s.position + 1} : ByteScanner).position rest :=
    atNext here narrow
  exact peekHead next ascii

theorem runEncode (here : At text s.position rest) (bytewise : Bytewise p) :
    s.runEnd text p = s.position + (encode (rest.takeWhile p)).length := by
  rw [runEnd, atDrop here, takeWhileEncode bytewise]

theorem atSplit (p : Char → Bool) (here : At text s.position rest) :
    At text s.position (rest.takeWhile p ++ rest.dropWhile p) := by
  rwa [List.takeWhile_append_dropWhile]

theorem atRun (here : At text s.position rest) (bytewise : Bytewise p) :
    At text (s.runEnd text p) (rest.dropWhile p) := by
  rw [runEncode here bytewise]
  exact atAdvance (atSplit p here)

theorem sliceRun (here : At text s.position rest) (bytewise : Bytewise p) :
    slice text s.position (s.runEnd text p) = .ok (rest.takeWhile p) := by
  rw [runEncode here bytewise]
  exact sliceWord (atSplit p here)

theorem takeRun (here : At text s.position rest) (bytewise : Bytewise p) :
    s.take text p = .ok (rest.takeWhile p, {s with position := s.runEnd text p}) := by
  rw [take, sliceRun here bytewise]
  rfl

theorem skipStays (here : At text s.position rest)
    (solid : ∀ c ∈ rest.head?, isBlank c = false ∧ c ≠ '/') : s.skip text = .ok s := by
  have none : rest.takeWhile isBlank = [] := by
    cases rest with
    | nil => rfl
    | cons c rest => exact List.takeWhile_cons_of_neg (by simp [(solid c rfl).1])
  have stays : s.runEnd text isBlank = s.position := by
    rw [runEncode here bytewiseBlank, none]
    rfl
  have plain : s.peek text 0 ≠ some '/' := by
    rw [ne_eq, peekHead here (by decide)]
    exact fun slash => (solid '/' slash).2 rfl
  rw [skip, sliceRun here bytewiseBlank]
  simp only [stays]
  rw [dif_neg fun both => plain both.1]

theorem skipComments (here : At text s.position rest) :
    ∃ n, s.skip text = .ok {s with position := n} ∧ At text n (skipBlanks rest) := by
  have blanks := atRun here bytewiseBlank
  rw [skip, sliceRun here bytewiseBlank, skipBlanks]
  generalize rest.dropWhile isBlank = cs at blanks
  generalize s.runEnd text isBlank = n at blanks
  dsimp only
  have found : At text ({s with position := n} : ByteScanner).position cs := blanks
  by_cases comment : ∃ more, cs = '/' :: '/' :: more
  · obtain ⟨more, rfl⟩ := comment
    have slashes := And.intro ((peekHead found (by decide)).mpr rfl)
      ((peekSecond found (by decide) (by decide)).mpr rfl)
    have ended : At text (({s with position := n} : ByteScanner).atLineEnd text).position
        (toLineEnd more) := (atRun found bytewiseLine :)
    rw [dif_pos slashes]
    refine ⟨_, skipStays ended fun c first => ?_, ended⟩
    rw [lineEndHead first]
    decide
  · have plain : skipComment cs = cs := by
      unfold skipComment
      split
      · exact absurd ⟨_, rfl⟩ comment
      · rfl
    rw [plain, dif_neg]
    · exact ⟨n, rfl, found⟩
    · intro slashes
      obtain ⟨d, more, rfl⟩ : ∃ d more, cs = d :: more := by
        cases cs with
        | nil => cases (peekHead found (by decide)).mp slashes.1
        | cons d more => exact ⟨d, more, rfl⟩
      obtain rfl : d = '/' := Option.some.inj ((peekHead found (by decide)).mp slashes.1)
      obtain ⟨e, more, rfl⟩ : ∃ e later, more = e :: later := by
        cases more with
        | nil => cases (peekSecond found (by decide) (by decide)).mp slashes.2
        | cons e more => exact ⟨e, more, rfl⟩
      obtain rfl : e = '/' :=
        Option.some.inj ((peekSecond found (by decide) (by decide)).mp slashes.2)
      exact comment ⟨more, rfl⟩

def Recognised (s : ByteScanner) (text : String) (rest : List Char)
    (outcome : Except Mishap (Token × ByteScanner)) : Reading → Prop
  | .lexeme l after => ∃ n, outcome = .ok (.ofLexeme s.line l, {s with position := n}) ∧ At text n after
  | .lineEnd after => ∃ n, outcome = .ok ({category := .newline, line := s.line},
      {s with position := n, line := s.line + 1}) ∧ At text n after
  | .bad e => ∃ n, outcome = .ok ({category := .newline, line := s.line},
      {s with
        position := n, line := s.line + 1, pending := s.pending ++ [⟨s.line, .lexical e⟩]}) ∧
      At text n ((toLineEnd rest).drop 1)
  | .textEnd => rest = []

theorem newlineAt (here : At text s.position rest) (room : s.line + 1 < 4294967296)
    (ended : ∀ c ∈ rest.head?, c = '\n') :
    ∃ n, s.newline text = .ok ({category := .newline, line := s.line},
      {s with position := n, line := s.line + 1}) ∧ At text n (rest.drop 1) := by
  unfold newline
  rw [if_pos room]
  cases rest with
  | nil =>
    have nothing : s.peek text 0 ≠ some '\n' := by
      rw [ne_eq, peekHead here (by decide)]
      intro first
      cases first
    exact ⟨s.position, by rw [if_neg nothing], here⟩
  | cons c rest =>
    obtain rfl := ended c rfl
    have found : s.peek text 0 = some '\n' := (peekHead here (by decide)).mpr rfl
    exact ⟨s.position + 1, by rw [if_pos found], atNext here (by decide)⟩

theorem refuseAt (here : At text s.position rest) (room : s.line + 1 < 4294967296) (e : LexicalError) :
    Recognised s text rest (s.refuse text e) (.bad e) := by
  have ended : At text (s.runEnd text (· != '\n')) (toLineEnd rest) := atRun here bytewiseLine
  exact newlineAt
    (s := {s with
      position := s.runEnd text (· != '\n'), pending := s.pending ++ [⟨s.line, .lexical e⟩]})
    ended room fun _ first => lineEndHead first

theorem answerAt {after : List Char} {n : Nat} (behind : At text n after)
    (room : s.line + 1 < 4294967296) (same : toLineEnd after = toLineEnd rest)
    (r : Except LexicalError Lexeme) :
    Recognised s text rest (({s with position := n} : ByteScanner).answer text r) (.ofExcept after r) := by
  cases r with
  | ok l => exact ⟨n, rfl, behind⟩
  | error e =>
    have refused := refuseAt (s := {s with position := n}) behind room e
    obtain ⟨m, ended, there⟩ := refused
    exact ⟨m, ended, same ▸ there⟩

theorem runAt (here : At text s.position (c :: rest)) (bytewise : Bytewise p) (first : p c = true)
    (stops : p '\n' = false) (room : s.line + 1 < 4294967296)
    {read : List Char → Except Mishap (Except LexicalError Lexeme)} {r : Except LexicalError Lexeme}
    (reads : read (c :: rest.takeWhile p) = .ok r) :
    Recognised s text (c :: rest) (do
      let (word, s) ← s.take text p
      s.answer text (← read word)) (.ofExcept (rest.dropWhile p) r) := by
  have behind := atRun here bytewise
  rw [List.dropWhile_cons_of_pos first] at behind
  rw [takeRun here bytewise, List.takeWhile_cons_of_pos first]
  have line := (toLineEndRun stops (c :: rest))
  rw [List.dropWhile_cons_of_pos first] at line
  have outcome := answerAt (s := s) behind room line r
  simp only [bind, Except.bind, reads]
  exact outcome

theorem recognisePlain (seen : s.peek text 0 = some c) (line : c ≠ '\n') (comma : c ≠ ',')
    (equals : c ≠ '=') (slash : c ≠ '/') : s.recognise text = (
      if c.isDigit then do
        let (digits, s) ← s.take text Char.isDigit
        s.answer text (← constantOf digits)
      else if c.isAlpha then do
        let (word, s) ← s.take text Char.isAlphanum
        s.answer text (← wordOf word)
      else do
        let rest ← slice text s.position (bytes text).length
        s.refuse text (.invalidChar (rest.head?.getD '?'))) := by
  simp [recognise, seen]

theorem recogniseOther (here : At text s.position (c :: rest)) (room : s.line + 1 < 4294967296) :
    Recognised s text (c :: rest) (do
      let cs ← slice text s.position (bytes text).length
      s.refuse text (.invalidChar (cs.head?.getD '?'))) (.bad (.invalidChar c)) := by
  rw [sliceAll here]
  exact refuseAt here room (.invalidChar c)

theorem recogniseAt (here : At text s.position rest) (room : s.line + 1 < 4294967296) :
    Recognised s text rest (s.recognise text) (readHead rest) := by
  cases rest with
  | nil => rfl
  | cons c rest =>
    by_cases line : c = '\n'
    · subst line
      have seen : s.peek text 0 = some '\n' := peekAscii here (by decide)
      have outcome : s.recognise text = s.newline text := by simp only [recognise, seen]
      rw [outcome]
      exact newlineAt here room fun _ first => (Option.some.inj first).symm
    by_cases comma : c = ','
    · subst comma
      have seen : s.peek text 0 = some ',' := peekAscii here (by decide)
      exact ⟨s.position + 1, by simp only [recognise, seen], atNext here (by decide)⟩
    by_cases slash : c = '/'
    · subst slash
      have seen : s.peek text 0 = some '/' := peekAscii here (by decide)
      have outcome : s.recognise text = s.refuse text .straySlash := by simp only [recognise, seen]
      rw [outcome]
      exact refuseAt here room .straySlash
    by_cases equals : c = '='
    · subst equals
      have seen : s.peek text 0 = some '=' := peekAscii here (by decide)
      by_cases into : rest.head? = some '>'
      · obtain ⟨d, rest, rfl⟩ : ∃ d more, rest = d :: more := by
          cases rest with
          | nil => cases into
          | cons d more => exact ⟨d, more, rfl⟩
        obtain rfl : d = '>' := Option.some.inj into
        have next := (peekSecond here (by decide) (by decide)).mpr into
        refine ⟨s.position + 2, ?_, atNext (atNext here (by decide)) (by decide)⟩
        simp only [recognise, seen, next, if_true]
      · have apart : s.peek text 1 ≠ some '>' := fun next =>
          into ((peekSecond here (by decide) (by decide)).mp next)
        have outcome : s.recognise text = s.refuse text .loneEquals := by
          simp only [recognise, seen, apart, if_false]
        rw [outcome, readHeadEquals into]
        exact refuseAt here room .loneEquals
    rw [readHeadPlain line comma equals slash]
    rcases Nat.lt_or_ge c.toNat 128 with ascii | wide
    · rw [recognisePlain (peekAscii here ascii) line comma equals slash]
      by_cases digit : c.isDigit = true
      · rw [if_pos digit, if_pos digit]
        refine runAt here bytewiseDigit digit (by decide) room (constantRead ?_)
        exact List.forall_mem_cons.mpr ⟨digit, fun d inside => List.mem_takeWhile_imp inside⟩
      · rw [if_neg digit, if_neg digit]
        by_cases letter : c.isAlpha = true
        · rw [if_pos letter, if_pos letter]
          exact runAt here bytewiseAlphanum (Bool.or_eq_true_iff.mpr (.inl letter)) (by decide) room
            (wordRead _)
        · rw [if_neg letter, if_neg letter]
          exact recogniseOther here room
    · obtain ⟨d, seen, beyond⟩ := peekWide here wide
      have apart (e : Char) (narrow : e.toNat < 128) : d ≠ e := by
        rintro rfl
        omega
      rw [recognisePlain seen (apart _ (by decide)) (apart _ (by decide)) (apart _ (by decide))
        (apart _ (by decide))]
      simp only [wideDigit wide, wideDigit beyond, wideAlpha wide, wideAlpha beyond, Bool.false_eq_true,
        if_false]
      exact recogniseOther here room

structure Stands (text : String) (s : ByteScanner) (m : Scanner) : Prop where
  here : At text s.position m.rest
  line : s.line = m.line
  start : s.atLineStart = m.atLineStart
  finished : s.finished = m.finished
  pending : s.pending = m.pending

section
variable {m : Scanner}

theorem standsStart (text : String) : Stands text {} (.ofText text) :=
  ⟨atStart text, rfl, rfl, rfl, rfl⟩

theorem tokenSplits {n : Nat} {t : Token} {s' : ByteScanner}
    (skipped : s.skip text = .ok {s with position := n})
    (found : ({s with position := n} : ByteScanner).recognise text = .ok (t, s')) :
    s.token text = .ok (t, {s' with atLineStart := t.category == .newline}) := by
  simp only [token, skipped, found, bind, Except.bind]

theorem standsEndLine {n k : Nat} {after : List Char} (problem : Option LexicalError)
    (stands : Stands text s m) (skipped : s.skip text = .ok {s with position := n})
    (outcome : ({s with position := n} : ByteScanner).recognise text =
      .ok ({category := .newline, line := s.line}, {s with
        position := k
        line := s.line + 1
        pending := s.pending ++ (Item.lineEnd s.line problem).diagnostic?.toList}))
    (there : At text k after) (item : m.item = m.endLine after problem) :
    ∃ s', s.token text = .ok (m.token.1, s') ∧ Stands text s' m.token.2 := by
  have told : m.token = ({category := .newline, line := m.line}, {m with
      rest := after
      line := m.line + 1
      atLineStart := true
      pending := m.pending ++ (Item.lineEnd m.line problem).diagnostic?.toList}) := by
    simp only [Scanner.token, item, Scanner.endLine, Item.token]
  rw [told, ← stands.line, ← stands.pending]
  exact ⟨_, tokenSplits skipped outcome, there, rfl, rfl, stands.finished, rfl⟩

theorem standsLexeme {n k : Nat} {after : List Char} {l : Lexeme} (stands : Stands text s m)
    (skipped : s.skip text = .ok {s with position := n})
    (outcome : ({s with position := n} : ByteScanner).recognise text =
      .ok (.ofLexeme s.line l, {s with position := k}))
    (there : At text k after) (found : read m.rest = .lexeme l after) :
    ∃ s', s.token text = .ok (m.token.1, s') ∧ Stands text s' m.token.2 := by
  have told : m.token = (.ofLexeme m.line l, {m with rest := after, atLineStart := false}) := by
    simp only [Scanner.token, Scanner.item, found, Item.token, Item.diagnostic?, Option.toList_none,
      List.append_nil]
  rw [told, ← stands.line]
  refine ⟨_, tokenSplits skipped outcome, there, rfl, ?_, stands.finished, stands.pending⟩
  exact beq_eq_false_iff_ne.mpr (lexemeCategory s.line l).1

theorem recogniseEnd (here : At text s.position []) : s.recognise text =
    if s.atLineStart then .ok ({category := .endFile, line := s.line}, s) else s.newline text := by
  have seen : s.peek text 0 = none := by
    rw [peekAt here]
    rfl
  simp only [recognise, seen]

theorem standsTextEnd {n : Nat} (stands : Stands text s m)
    (skipped : s.skip text = .ok {s with position := n}) (there : At text n [])
    (found : read m.rest = .textEnd) (start : m.atLineStart = true) :
    ∃ s', s.token text = .ok (m.token.1, s') ∧ Stands text s' m.token.2 := by
  have told : m.token = ({category := .endFile, line := m.line},
      {m with rest := [], atLineStart := false}) := by
    simp only [Scanner.token, Scanner.item, found, start, if_true, Item.token, Item.diagnostic?,
      Option.toList_none, List.append_nil]
  have outcome := (recogniseEnd (s := {s with position := n}) there).trans
    (if_pos (stands.start.trans start))
  rw [told, ← stands.line]
  exact ⟨_, tokenSplits skipped outcome, there, rfl, rfl, stands.finished, stands.pending⟩

theorem standsLastLine {n : Nat} (stands : Stands text s m)
    (skipped : s.skip text = .ok {s with position := n}) (there : At text n [])
    (found : read m.rest = .textEnd) (inside : m.atLineStart = false)
    (room : s.line + 1 < 4294967296) :
    ∃ s', s.token text = .ok (m.token.1, s') ∧ Stands text s' m.token.2 := by
  have item : m.item = m.endLine [] none := by
    simp only [Scanner.item, found, inside, Bool.false_eq_true, if_false]
  have within : s.atLineStart ≠ true := by rw [stands.start, inside]; decide
  obtain ⟨k, ended, after⟩ := newlineAt (s := {s with position := n}) there room fun c first => by
    cases first
  have outcome := ((recogniseEnd (s := {s with position := n}) there).trans (if_neg within)).trans ended
  refine standsEndLine none stands skipped ?_ after item
  simpa only [Item.diagnostic?, Option.toList_none, List.append_nil] using outcome

theorem tokenFollows (stands : Stands text s m)
    (room : m.line + 1 < 4294967296 ∨ m.rest = [] ∧ m.atLineStart = true) :
    ∃ s', s.token text = .ok (m.token.1, s') ∧ Stands text s' m.token.2 := by
  obtain ⟨n, skipped, there⟩ := skipComments stands.here
  have recognised (more : read m.rest ≠ .textEnd) : Recognised {s with position := n} text
      (skipBlanks m.rest) (({s with position := n} : ByteScanner).recognise text) (read m.rest) := by
    refine recogniseAt there (stands.line ▸ room.resolve_right fun last => more ?_)
    rw [last.1]
    rfl
  cases found : read m.rest with
  | lexeme l rest =>
    rw [found] at recognised
    obtain ⟨k, outcome, after⟩ := recognised (by intro same; cases same)
    exact standsLexeme stands skipped outcome after found
  | bad e =>
    rw [found] at recognised
    obtain ⟨k, outcome, after⟩ := recognised (by intro same; cases same)
    rw [toLineEndSkip] at after
    exact standsEndLine (some e) stands skipped outcome after
      (by simp only [Scanner.item, found])
  | lineEnd rest =>
    rw [found] at recognised
    obtain ⟨k, outcome, after⟩ := recognised (by intro same; cases same)
    refine standsEndLine none stands skipped ?_ after (by simp only [Scanner.item, found])
    simpa only [Item.diagnostic?, Option.toList_none, List.append_nil] using outcome
  | textEnd =>
    rw [readHeadEnd found] at there
    cases start : m.atLineStart with
    | true => exact standsTextEnd stands skipped there found start
    | false =>
      refine standsLastLine stands skipped there found start (stands.line ▸ room.resolve_right fun last => ?_)
      rw [start] at last
      cases last.2

end
end ByteScanner
end Straightline.Source
