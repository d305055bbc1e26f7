import Mathlib.Data.List.TakeWhile
import Straightline.Proofs.Source.Verdicts

/-! Reading goes line by line. The words of a line and what is wrong on it are found without the lines
around it, so the items of a text are those of its lines, one line after the other. -/
namespace Straightline.Source

def lineWords (cs : List Char) : List Lexeme × Option LexicalError :=
  match _ : read cs with
  | .lexeme l rest => (l :: (lineWords rest).1, (lineWords rest).2)
  | .bad e => ([], some e)
  | .lineEnd _ | .textEnd => ([], none)
termination_by cs.length
decreasing_by all_goals rename_i found; exact readShorter (by rw [found]; rfl)

section
variable {cs rest more : List Char} {l : Lexeme} {e : LexicalError} {p : Char → Bool} {s : Scanner}

theorem lineWordsLexeme (found : read cs = .lexeme l rest) :
    lineWords cs = (l :: (lineWords rest).1, (lineWords rest).2) := by
  rw [lineWords]
  split <;> simp_all

theorem lineWordsBad (found : read cs = .bad e) : lineWords cs = ([], some e) := by
  rw [lineWords]
  split <;> simp_all

theorem lineWordsEnd (found : read cs = .textEnd) : lineWords cs = ([], none) := by
  rw [lineWords]
  split <;> simp_all

def Reading.before (more : List Char) : Reading → Reading
  | lexeme l rest => lexeme l (rest ++ '\n' :: more)
  | bad e => bad e
  | lineEnd rest => lineEnd (rest ++ '\n' :: more)
  | textEnd => lineEnd more

theorem dropWhileBefore (stops : p '\n' = false) :
    (cs ++ '\n' :: more).dropWhile p = cs.dropWhile p ++ '\n' :: more := by
  induction cs with
  | nil => simp [stops]
  | cons c cs ih =>
    cases holds : p c with
    | true => simpa [holds] using ih
    | false => simp [holds]

theorem takeWhileBefore (stops : p '\n' = false) :
    (cs ++ '\n' :: more).takeWhile p = cs.takeWhile p := by
  induction cs with
  | nil => simp [stops]
  | cons c cs ih =>
    cases holds : p c with
    | true => simpa [holds] using ih
    | false => simp [holds]

theorem readHeadEquals (other : cs.head? ≠ some '>') : readHead ('=' :: cs) = .bad .loneEquals := by
  cases cs with
  | nil => rfl
  | cons c cs =>
    have apart : c ≠ '>' := by simpa using other
    simp [readHead, apart]

theorem readHeadPlain {c : Char} (line : c ≠ '\n') (comma : c ≠ ',') (equals : c ≠ '=')
    (slash : c ≠ '/') :
    readHead (c :: cs) = if c.isDigit then
      .ofExcept (cs.dropWhile Char.isDigit) (readConstant (c :: cs.takeWhile Char.isDigit))
    else if c.isAlpha then
      .ofExcept (cs.dropWhile Char.isAlphanum) (readWord (c :: cs.takeWhile Char.isAlphanum))
    else .bad (.invalidChar c) := by
  simp [readHead, equals]

theorem skipCommentOther (other : cs.head? = some '/' → cs.tail.head? ≠ some '/') :
    skipComment cs = cs := by
  unfold skipComment
  split
  · simp at other
  · rfl

theorem skipCommentBefore :
    skipComment (cs ++ '\n' :: more) = skipComment cs ++ '\n' :: more := by
  fun_cases skipComment cs with
  | case1 rest => exact dropWhileBefore (p := (· != '\n')) (by decide)
  | case2 cs other =>
    refine skipCommentOther fun first second => ?_
    cases cs with
    | nil => simp at first
    | cons c cs =>
      cases cs with
      | nil => simp at second
      | cons d cs =>
        obtain ⟨rfl, rfl⟩ : c = '/' ∧ d = '/' := by simpa using And.intro first second
        exact other cs rfl

theorem ofExceptBefore (r : Except LexicalError Lexeme) :
    (Reading.ofExcept rest r).before more = .ofExcept (rest ++ '\n' :: more) r := by
  cases r <;> rfl

theorem readHeadBefore (plain : '\n' ∉ cs) :
    readHead (cs ++ '\n' :: more) = (readHead cs).before more := by
  cases cs with
  | nil => rfl
  | cons c cs =>
    have line : c ≠ '\n' := fun same => plain (same ▸ List.mem_cons_self)
    by_cases comma : c = ','
    · subst comma
      rfl
    by_cases slash : c = '/'
    · subst slash
      rfl
    by_cases equals : c = '='
    · subst equals
      cases cs with
      | nil => rfl
      | cons d cs =>
        by_cases into : d = '>'
        · subst into
          rfl
        · rw [readHeadEquals (by simp [into])]
          exact readHeadEquals (by simp [into])
    · rw [List.cons_append, readHeadPlain line comma equals slash,
        readHeadPlain line comma equals slash, dropWhileBefore (by decide), dropWhileBefore (by decide),
        takeWhileBefore (by decide), takeWhileBefore (by decide)]
      split
      · rw [ofExceptBefore]
      · split
        · rw [ofExceptBefore]
        · rfl

theorem skipBlanksSuffix (cs : List Char) : skipBlanks cs <:+ cs := by
  refine List.IsSuffix.trans ?_ (List.dropWhile_suffix isBlank)
  unfold skipBlanks skipComment
  split
  · rename_i rest same
    rw [same]
    exact (List.dropWhile_suffix _).trans ((List.suffix_cons _ _).trans (List.suffix_cons _ _))
  · exact List.suffix_rfl

theorem readHeadSuffix (left : (readHead cs).rest? = some rest) : rest <:+ cs := by
  unfold readHead at left
  split at left
  case h_7 c cs _ _ _ _ _ =>
    split at left
    · rw [ofExceptRest left]
      exact (List.dropWhile_suffix _).trans (List.suffix_cons _ _)
    · split at left
      · rw [ofExceptRest left]
        exact (List.dropWhile_suffix _).trans (List.suffix_cons _ _)
      · cases left
  all_goals cases left
  · exact List.suffix_cons _ _
  · exact List.suffix_cons _ _
  · exact (List.suffix_cons _ _).trans (List.suffix_cons _ _)

theorem readPlain (plain : '\n' ∉ cs) (left : (read cs).rest? = some rest) : '\n' ∉ rest :=
  fun inside => plain (((readHeadSuffix left).trans (skipBlanksSuffix cs)).subset inside)

theorem readBefore (plain : '\n' ∉ cs) :
    read (cs ++ '\n' :: more) = (read cs).before more := by
  rw [read, skipBlanks, dropWhileBefore (by decide), skipCommentBefore]
  exact readHeadBefore fun inside => plain ((skipBlanksSuffix cs).subset inside)

theorem ofExceptWithin {r : Except LexicalError Lexeme} : Reading.ofExcept cs r ≠ .lineEnd rest := by
  cases r <;> nofun

theorem readWithin (plain : '\n' ∉ cs) : read cs ≠ .lineEnd rest := by
  have plain' : '\n' ∉ skipBlanks cs := fun inside => plain ((skipBlanksSuffix cs).subset inside)
  intro ends
  unfold read readHead at ends
  split at ends
  case h_2 same => simp [same] at plain'
  case h_7 =>
    split at ends
    · exact ofExceptWithin ends
    · split at ends
      · exact ofExceptWithin ends
      · contradiction
  all_goals contradiction

theorem itemsLexeme (found : read s.rest = .lexeme l rest) :
    s.items = .lexeme s.line l :: {s with rest, atLineStart := false : Scanner}.items :=
  itemsStep (by simp [Scanner.item, found]) nofun

theorem itemsEndLine {problem : Option LexicalError} (step : s.item = s.endLine rest problem) :
    s.items = .lineEnd s.line problem ::
      {s with rest, line := s.line + 1, atLineStart := true : Scanner}.items :=
  itemsStep step nofun

def lineItems (n : Nat) (cs : List Char) : List Item :=
  (lineWords cs).1.map (.lexeme n) ++ [.lineEnd n (lineWords cs).2]

theorem toLineEndPlain (plain : '\n' ∉ cs) : toLineEnd cs = [] := by
  refine List.dropWhile_eq_nil_iff.mpr fun c inside => ?_
  have line : c ≠ '\n' := fun same => plain (same ▸ inside)
  simp [line]

theorem toLineEndBefore (plain : '\n' ∉ cs) : toLineEnd (cs ++ '\n' :: more) = '\n' :: more := by
  have all := toLineEndPlain plain
  unfold toLineEnd at all ⊢
  rw [dropWhileBefore (by decide), all, List.nil_append]

theorem itemsLine (plain : '\n' ∉ cs) (start : s.rest = cs ++ '\n' :: more) :
    s.items = lineItems s.line cs ++
      {s with rest := more, line := s.line + 1, atLineStart := true : Scanner}.items := by
  have before : read s.rest = (read cs).before more := by rw [start, readBefore plain]
  unfold lineItems
  fun_induction lineWords cs generalizing s with
  | case1 cs l rest found ih =>
    rw [found] at before
    have plain' : '\n' ∉ rest := readPlain plain (by rw [found]; rfl)
    have later := ih plain' (s := {s with rest := rest ++ '\n' :: more, atLineStart := false}) rfl
      (readBefore plain')
    rw [itemsLexeme before, later]
    rfl
  | case2 cs e found =>
    rw [found] at before
    have ended : (toLineEnd s.rest).drop 1 = more := by
      rw [start, toLineEndBefore plain, List.drop_one, List.tail_cons]
    exact itemsEndLine (by simp only [Scanner.item, before, Reading.before, ended])
  | case3 cs rest found => exact absurd found (readWithin plain)
  | case4 cs found =>
    rw [found] at before
    exact itemsEndLine (by simp only [Scanner.item, before, Reading.before])

/-- The items of the last line. It is given an end unless nothing is on it. -/
def lastItems (start : Bool) (n : Nat) (cs : List Char) : List Item :=
  if start && (lineWords cs).1.isEmpty && (lineWords cs).2.isNone then [.textEnd n]
  else lineItems n cs ++ [.textEnd (n + 1)]

theorem itemsTextEnd (found : read s.rest = .textEnd) (start : s.atLineStart = true) :
    s.items = [.textEnd s.line] := by
  have step : s.item = (.textEnd s.line, {s with rest := [], atLineStart := false}) := by
    simp [Scanner.item, found, start]
  exact itemsStop step

theorem itemsBad (plain : '\n' ∉ s.rest) (found : read s.rest = .bad e) :
    s.items = [.lineEnd s.line (some e), .textEnd (s.line + 1)] := by
  have step : s.item = s.endLine [] (some e) := by
    simp only [Scanner.item, found, toLineEndPlain plain, List.drop_nil]
  rw [itemsEndLine step, itemsTextEnd rfl rfl]

theorem itemsInside (inside : s.atLineStart = false) (plain : '\n' ∉ s.rest) :
    s.items = lineItems s.line s.rest ++ [.textEnd (s.line + 1)] := by
  generalize text : s.rest = cs at plain
  unfold lineItems
  fun_induction lineWords cs generalizing s with
  | case1 cs l rest found ih =>
    have plain' : '\n' ∉ rest := readPlain plain (by rw [found]; rfl)
    rw [itemsLexeme (text ▸ found), ih (s := {s with rest, atLineStart := false}) rfl rfl plain']
    rfl
  | case2 cs e found => exact itemsBad (text ▸ plain) (text ▸ found)
  | case3 cs rest found => exact absurd found (readWithin plain)
  | case4 cs found =>
    rw [← text] at found
    have step : s.item = s.endLine [] none := by simp [Scanner.item, found, inside]
    rw [itemsEndLine step, itemsTextEnd rfl rfl]
    rfl

theorem itemsLast (plain : '\n' ∉ s.rest) : s.items = lastItems s.atLineStart s.line s.rest := by
  cases start : s.atLineStart with
  | false => exact itemsInside start plain
  | true =>
    cases found : read s.rest with
    | lexeme l rest =>
      have plain' : '\n' ∉ rest := readPlain plain (by rw [found]; rfl)
      rw [itemsLexeme found, itemsInside (s := {s with rest, atLineStart := false}) rfl plain']
      simp [lastItems, lineItems, lineWordsLexeme found]
    | bad e =>
      rw [itemsBad plain found]
      simp [lastItems, lineItems, lineWordsBad found]
    | lineEnd rest => exact absurd found (readWithin plain)
    | textEnd =>
      rw [itemsTextEnd found start]
      simp [lastItems, lineWordsEnd found]

end

def textItems (start : Bool) (n : Nat) : List (List Char) → List Item
  | [] => []
  | [cs] => lastItems start n cs
  | cs :: lines => lineItems n cs ++ textItems true (n + 1) lines

theorem splitLast {cs : List Char} (plain : '\n' ∉ cs) : cs.splitOn '\n' = [cs] := by
  refine List.splitOnP_eq_singleton fun c inside => ?_
  have line : c ≠ '\n' := fun same => plain (same ▸ inside)
  simp [line]

theorem splitLine {cs more : List Char} (plain : '\n' ∉ cs) :
    (cs ++ '\n' :: more).splitOn '\n' = cs :: more.splitOn '\n' := by
  have first := splitLast plain
  unfold List.splitOn at first ⊢
  rw [List.splitOnP_append_cons _ _ (by simp), first, List.singleton_append]

theorem itemsText (s : Scanner) :
    s.items = textItems s.atLineStart s.line (s.rest.splitOn '\n') := by
  by_cases ends : '\n' ∈ s.rest
  · obtain ⟨cs, more, text, plain⟩ := List.eq_append_cons_of_mem ends
    have later := itemsText {s with rest := more, line := s.line + 1, atLineStart := true}
    obtain ⟨l, ls, lines⟩ := List.exists_cons_of_ne_nil (List.splitOn_ne_nil '\n' more)
    rw [itemsLine plain text, later, text, splitLine plain]
    simp only [lines, textItems]
  · rw [itemsLast ends, splitLast ends, textItems]
termination_by s.rest.length
decreasing_by
  rw [text, List.length_append, List.length_cons]
  omega

def judgeLine (n : Nat) (cs : List Char) : Verdict := judge n (lineWords cs).1 (lineWords cs).2

theorem verdictsLine (n : Nat) (cs : List Char) (items : List Item) :
    verdicts [] (lineItems n cs ++ items) = judgeLine n cs :: verdicts [] items := by
  rw [lineItems, List.append_assoc, verdictsWords, List.append_nil, List.singleton_append, verdicts,
    List.reverse_reverse]
  rfl

theorem verdictsText (start : Bool) (n : Nat) (lines : List (List Char)) :
    ∃ quiet, (∀ v ∈ quiet, v = ⟨none, []⟩) ∧ verdicts [] (textItems start n lines) =
      (lines.zipIdx n).map (fun l => judgeLine l.2 l.1) ++ quiet := by
  fun_induction textItems start n lines with
  | case1 => exact ⟨[], by simp, rfl⟩
  | case2 start n cs =>
    unfold lastItems
    split
    · rename_i blank
      obtain ⟨words, problem⟩ : (lineWords cs).1 = [] ∧ (lineWords cs).2 = none := by
        simp only [Bool.and_eq_true, List.isEmpty_iff, Option.isNone_iff_eq_none] at blank
        exact ⟨blank.1.2, blank.2⟩
      refine ⟨[], by simp, ?_⟩
      simp [verdicts, judgeLine, words, problem]
    · exact ⟨[⟨none, []⟩], by simp, by rw [verdictsLine]; rfl⟩
  | case3 start n cs lines _ ih =>
    obtain ⟨quiet, silent, judged⟩ := ih
    refine ⟨quiet, silent, ?_⟩
    rw [verdictsLine, judged]
    rfl

def numberedLines (text : String) : List (List Char × Nat) := (text.toList.splitOn '\n').zipIdx 1

theorem verdictsLines (text : String) :
    diagnostics text = (numberedLines text).flatMap (fun l => (judgeLine l.2 l.1).diagnostics) ∧
      (verdicts [] (items text)).filterMap Verdict.instr =
        (numberedLines text).filterMap fun l => (judgeLine l.2 l.1).instr := by
  obtain ⟨quiet, silent, judged⟩ := verdictsText false 1 (text.toList.splitOn '\n')
  have found : verdicts [] (items text) =
      (numberedLines text).map (fun l => judgeLine l.2 l.1) ++ quiet := by
    rw [items, itemsText]
    exact judged
  have noWrongs : quiet.flatMap Verdict.diagnostics = [] :=
    List.flatMap_eq_nil_iff.mpr fun v inside => by rw [silent v inside]
  have noInstrs : quiet.filterMap Verdict.instr = [] :=
    List.filterMap_eq_nil_iff.mpr fun v inside => by rw [silent v inside]
  constructor
  · rw [diagnosticsVerdicts, found, List.flatMap_append, noWrongs, List.append_nil, List.flatMap_map]
  · rw [found, List.filterMap_append, noInstrs, List.append_nil, List.filterMap_map]
    rfl

theorem parseLines (text : String) (b : Block) : parse text = .ok b ↔
    (∀ l ∈ numberedLines text, (judgeLine l.2 l.1).diagnostics = []) ∧
      b = .ofList ((numberedLines text).filterMap fun l => (judgeLine l.2 l.1).instr) := by
  obtain ⟨wrongs, instrs⟩ := verdictsLines text
  have parsed : parse text = if (diagnostics text).isEmpty then
      .ok (.ofList ((numberedLines text).filterMap fun l => (judgeLine l.2 l.1).instr))
      else .error (diagnostics text) := by
    rw [← instrs]
    exact parseVerdicts text
  rw [← List.flatMap_eq_nil_iff, ← wrongs, parsed]
  by_cases right : diagnostics text = []
  · rw [if_pos (List.isEmpty_iff.mpr right)]
    exact ⟨fun ok => ⟨right, (Except.ok.inj ok).symm⟩, fun both => both.2 ▸ rfl⟩
  · rw [if_neg (fun empty => right (List.isEmpty_iff.mp empty))]
    exact ⟨nofun, fun both => absurd both.1 right⟩

theorem lineItemsNumbered (n : Nat) (cs : List Char) : ∀ i ∈ lineItems n cs, i.token.line = n := by
  intro i inside
  rcases List.mem_append.mp inside with word | last
  · obtain ⟨l, -, rfl⟩ := List.mem_map.mp word
    cases l <;> rfl
  · rw [List.mem_singleton.mp last]
    rfl

theorem itemsNumbered (start : Bool) (n : Nat) (lines : List (List Char)) :
    ∀ i ∈ textItems start n lines, i.token.line ≤ n + lines.length := by
  fun_induction textItems start n lines with
  | case1 => simp
  | case2 start n cs =>
    intro i inside
    unfold lastItems at inside
    split at inside
    · rw [List.mem_singleton.mp inside]
      exact Nat.le_succ n
    · rcases List.mem_append.mp inside with early | last
      · rw [lineItemsNumbered n cs i early]
        exact Nat.le_succ n
      · rw [List.mem_singleton.mp last]
        exact Nat.le_refl _
  | case3 start n cs lines _ ih =>
    intro i inside
    rw [List.length_cons]
    rcases List.mem_append.mp inside with early | later
    · rw [lineItemsNumbered n cs i early]
      exact Nat.le_add_right n _
    · have bound := ih i later
      omega

theorem tokensNumbered (text : String) :
    ∀ t ∈ tokens text, t.line ≤ 1 + (text.toList.splitOn '\n').length := by
  intro t inside
  obtain ⟨i, found, rfl⟩ := List.mem_map.mp inside
  rw [items, itemsText] at found
  exact itemsNumbered _ _ _ i found

end Straightline.Source
