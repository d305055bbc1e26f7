import Straightline.Proofs.Source.Bytes

/-! The stream of tokens. Every token takes characters away but for the end that a last line is given
and the end of the text, so the stream ends. Each end of a line counts the lines on: a token is numbered
by the ends of lines before it, and these are the line breaks before the byte where it begins. -/
namespace Straightline.Source

section
variable {cs rest : List Char} {l : Lexeme} {p : Char → Bool}

theorem countRun (stops : p '\n' = false) (cs : List Char) :
    (cs.dropWhile p).count '\n' = cs.count '\n' := by
  have none := List.count_eq_zero_of_not_mem (runWithin stops cs)
  calc (cs.dropWhile p).count '\n'
      _ = (cs.takeWhile p ++ cs.dropWhile p).count '\n' := by rw [List.count_append, none, Nat.zero_add]
      _ = cs.count '\n' := by rw [List.takeWhile_append_dropWhile]

theorem countSkip (cs : List Char) : (skipBlanks cs).count '\n' = cs.count '\n' := by
  rw [← countRun (p := isBlank) (by decide) cs, skipBlanks]
  generalize cs.dropWhile isBlank = ds
  fun_cases skipComment ds with
  | case1 more =>
    rw [toLineEnd, countRun (p := (· != '\n')) (by decide), List.count_cons_of_ne (by decide),
      List.count_cons_of_ne (by decide)]
  | case2 => rfl

theorem readHeadBreak (found : readHead cs = .lineEnd rest) : cs = '\n' :: rest := by
  unfold readHead at found
  split at found
  case h_2 =>
    cases found
    rfl
  case h_7 =>
    split at found
    · exact absurd found ofExceptWithin
    · split at found
      · exact absurd found ofExceptWithin
      · cases found
  all_goals cases found

theorem readHeadWord (found : readHead cs = .lexeme l rest) : rest.count '\n' = cs.count '\n' := by
  have left : (readHead cs).rest? = some rest := by rw [found]; rfl
  cases cs with
  | nil => cases found
  | cons c cs =>
    by_cases line : c = '\n'
    · subst line
      cases found
    rw [List.count_cons_of_ne line]
    by_cases comma : c = ','
    · subst comma
      cases found
      rfl
    by_cases slash : c = '/'
    · subst slash
      cases found
    by_cases equals : c = '='
    · subst equals
      cases cs with
      | nil => cases found
      | cons d cs =>
        by_cases into : d = '>'
        · subst into
          cases found
          rw [List.count_cons_of_ne (by decide)]
        · rw [readHeadEquals (by simp [into])] at found
          cases found
    · rw [readHeadPlain line comma equals slash] at left
      split at left
      · rw [ofExceptRest left, countRun (by decide)]
      · split at left
        · rw [ofExceptRest left, countRun (by decide)]
        · cases left

theorem encodeLength (cs : List Char) : cs.length ≤ (encode cs).length := by
  induction cs with
  | nil => exact Nat.le_refl _
  | cons c cs ih =>
    have some := Char.utf8Size_pos c
    rw [encodeCons, List.length_append, String.length_utf8EncodeChar, List.length_cons]
    omega

end

inductive Steps (m : Scanner) : Item → Scanner → Prop where
  | lexeme (l : Lexeme) {rest : List Char} (shorter : rest.length < m.rest.length)
      (breaks : rest.count '\n' = m.rest.count '\n') :
      Steps m (.lexeme m.line l) {m with rest, atLineStart := false}
  | lineEnd (problem : Option LexicalError) {rest : List Char} (shorter : rest.length < m.rest.length)
      (breaks : rest.count '\n' + 1 = m.rest.count '\n') :
      Steps m (.lineEnd m.line problem) {m with rest, line := m.line + 1, atLineStart := true}
  | lastLine (problem : Option LexicalError) (breaks : m.rest.count '\n' = 0)
      (inside : m.rest = [] → m.atLineStart = false) :
      Steps m (.lineEnd m.line problem) {m with rest := [], line := m.line + 1, atLineStart := true}
  | textEnd (start : m.atLineStart = true) :
      Steps m (.textEnd m.line) {m with rest := [], atLineStart := false}

theorem badSteps {m : Scanner} {e : LexicalError} (failed : read m.rest = .bad e) :
    Steps m (.lineEnd m.line (some e)) (m.endLine ((toLineEnd m.rest).drop 1) (some e)).2 := by
  have breaks := countRun (p := (· != '\n')) (by decide) m.rest
  have shorter := toLineEndLength m.rest
  change (toLineEnd m.rest).count '\n' = _ at breaks
  cases ends : toLineEnd m.rest with
  | nil =>
    rw [ends] at breaks
    refine .lastLine _ breaks.symm fun none => ?_
    rw [none] at failed
    cases failed
  | cons c more =>
    have first : c ∈ (toLineEnd m.rest).head? := by rw [ends]; rfl
    obtain rfl := lineEndHead first
    rw [ends, List.count_cons_self] at breaks
    rw [ends] at shorter
    exact .lineEnd _ shorter breaks

theorem itemSteps (m : Scanner) : Steps m m.item.1 m.item.2 := by
  unfold Scanner.item
  cases found : read m.rest with
  | lexeme l rest =>
    exact .lexeme l (readShorter (by rw [found]; rfl)) ((readHeadWord found).trans (countSkip m.rest))
  | bad e => exact badSteps found
  | lineEnd rest =>
    refine .lineEnd none (readShorter (by rw [found]; rfl)) ?_
    rw [← countSkip m.rest, readHeadBreak found, List.count_cons_self]
  | textEnd =>
    cases start : m.atLineStart with
    | true => exact .textEnd start
    | false =>
      refine .lastLine none ?_ fun _ => start
      rw [← countSkip m.rest, readHeadEnd found]
      rfl

theorem takenSteps {m m' : Scanner} {i : Item} (taken : m.item = (i, m')) : Steps m i m' := by
  have steps := itemSteps m
  rwa [taken] at steps

theorem itemsLength (m : Scanner) : m.items.length ≤ m.rest.length + 2 := by
  fun_induction Scanner.items m with
  | case1 m => simp
  | case2 m line l m' taken ih =>
    cases takenSteps taken with
    | lexeme _ shorter =>
      rw [List.length_cons]
      exact Nat.le_trans (Nat.succ_le_succ ih) (Nat.add_le_add_right shorter 2)
  | case3 m line problem m' taken ih =>
    cases takenSteps taken with
    | lineEnd _ shorter =>
      rw [List.length_cons]
      exact Nat.le_trans (Nat.succ_le_succ ih) (Nat.add_le_add_right shorter 2)
    | lastLine =>
      rw [itemsTextEnd rfl rfl]
      exact Nat.le_add_left 2 _

inductive Stream : Bool → Nat → List Item → Prop where
  | textEnd (n : Nat) : Stream true n [.textEnd n]
  | lexeme {start : Bool} {n : Nat} {is : List Item} (l : Lexeme) (later : Stream false n is) :
      Stream start n (.lexeme n l :: is)
  | lineEnd {start : Bool} {n : Nat} {is : List Item} (problem : Option LexicalError)
      (later : Stream true (n + 1) is) : Stream start n (.lineEnd n problem :: is)

theorem itemsStream (m : Scanner) : Stream m.atLineStart m.line m.items := by
  fun_induction Scanner.items m with
  | case1 m line m' taken =>
    cases takenSteps taken with
    | textEnd start => exact start ▸ .textEnd _
  | case2 m line l m' taken ih =>
    cases takenSteps taken with
    | lexeme => exact .lexeme l ih
  | case3 m line problem m' taken ih =>
    cases takenSteps taken with
    | lineEnd => exact .lineEnd problem ih
    | lastLine => exact .lineEnd problem ih

section
variable {start : Bool} {n : Nat} {is : List Item}

theorem streamEnds (stream : Stream start n is) : (start = true ∧ is = [.textEnd n]) ∨
    ∃ front k problem, is = front ++ [.lineEnd k problem, .textEnd (k + 1)] ∧
      ∀ i ∈ front, i.token.category ≠ .endFile := by
  induction stream with
  | textEnd n => exact .inl ⟨rfl, rfl⟩
  | lexeme l later ih =>
    obtain ⟨inside, -⟩ | ⟨front, k, problem, rfl, going⟩ := ih
    · cases inside
    · exact .inr ⟨_ :: front, k, problem, rfl,
        List.forall_mem_cons.mpr ⟨(lexemeCategory _ l).2, going⟩⟩
  | lineEnd problem later ih =>
    obtain ⟨-, rfl⟩ | ⟨front, k, last, rfl, going⟩ := ih
    · exact .inr ⟨[], _, problem, rfl, List.forall_mem_nil _⟩
    · refine .inr ⟨_ :: front, k, last, rfl, List.forall_mem_cons.mpr ⟨?_, going⟩⟩
      change Category.newline ≠ .endFile
      decide

theorem lexemeLine (n : Nat) (l : Lexeme) : (Token.ofLexeme n l).line = n := by
  cases l <;> rfl

theorem streamNumbered {before after : List Token} {t : Token} (stream : Stream start n is)
    (split : is.map Item.token = before ++ t :: after) :
    t.line = n + before.countP (·.category == .newline) := by
  induction stream generalizing before with
  | textEnd n =>
    cases before with
    | nil =>
      cases split
      rfl
    | cons first before =>
      have short := congrArg List.length split
      simp at short
  | @lexeme _ n _ l later ih =>
    cases before with
    | nil =>
      cases split
      exact lexemeLine _ l
    | cons first before =>
      obtain ⟨rfl, rest⟩ := List.cons.inj split
      have inside := beq_eq_false_iff_ne.mpr (lexemeCategory n l).1
      rw [ih rest, List.countP_cons_of_neg (by simp [Item.token, inside])]
  | @lineEnd _ n _ problem later ih =>
    cases before with
    | nil =>
      cases split
      rfl
    | cons first before =>
      obtain ⟨rfl, rest⟩ := List.cons.inj split
      rw [ih rest, List.countP_cons_of_pos (by rfl)]
      omega

theorem streamLater (stream : Stream start n is) : ∀ i ∈ is, n ≤ i.token.line := by
  induction stream with
  | textEnd n => exact List.forall_mem_singleton.mpr (Nat.le_refl n)
  | lexeme l later ih => exact List.forall_mem_cons.mpr ⟨(lexemeLine _ l).ge, ih⟩
  | lineEnd problem later ih =>
    exact List.forall_mem_cons.mpr ⟨Nat.le_refl _, fun i inside => Nat.le_of_succ_le (ih i inside)⟩

theorem diagnosticLine {i : Item} {d : Diagnostic} (told : i.diagnostic? = some d) :
    i.token = {category := .newline, line := d.line} := by
  cases i with
  | lexeme n l => cases told
  | textEnd n => cases told
  | lineEnd n problem =>
    cases problem with
    | none => cases told
    | some e =>
      cases told
      rfl

theorem streamErrors (stream : Stream start n is) :
    (is.filterMap Item.diagnostic?).Pairwise (·.line < ·.line) := by
  induction stream with
  | textEnd n => exact .nil
  | lexeme l later ih => exact ih
  | lineEnd problem later ih =>
    cases problem with
    | none => exact ih
    | some e =>
      refine .cons (fun d inside => ?_) ih
      obtain ⟨i, among, told⟩ := List.mem_filterMap.mp inside
      have behind := streamLater later i among
      rwa [diagnosticLine told] at behind

theorem streamErrorEnds {d : Diagnostic} (stream : Stream start n is)
    (told : d ∈ is.filterMap Item.diagnostic?) :
    ∃ before after, is.map Item.token = before ++ {category := .newline, line := d.line} :: after ∧
      ∀ t ∈ after, t.line ≠ d.line := by
  induction stream with
  | textEnd n => cases told
  | lexeme l later ih =>
    obtain ⟨before, after, split, behind⟩ := ih told
    exact ⟨_ :: before, after, congrArg (List.cons _) split, behind⟩
  | @lineEnd _ n is problem later ih =>
    by_cases here : (Item.lineEnd n problem).diagnostic? = some d
    · refine ⟨[], is.map Item.token, congrArg (· :: _) (diagnosticLine here), fun t inside => ?_⟩
      obtain ⟨i, among, rfl⟩ := List.mem_map.mp inside
      have behind := streamLater later i among
      have line : n = d.line := congrArg Token.line (diagnosticLine here)
      omega
    · obtain ⟨i, among, found⟩ := List.mem_filterMap.mp told
      obtain rfl | among := List.mem_cons.mp among
      · exact absurd found here
      · obtain ⟨before, after, split, behind⟩ := ih (List.mem_filterMap.mpr ⟨i, among, found⟩)
        exact ⟨_ :: before, after, congrArg (List.cons _) split, behind⟩

end

/-- The lines counted so far and the line breaks still ahead are those of the text, until a last line
without a break has been given its end. -/
def Counted (text : String) (m : Scanner) : Prop :=
  m.line + m.rest.count '\n' = 1 + text.toList.count '\n' ∨ m.rest = [] ∧ m.atLineStart = true

section
variable {text : String} {m m' : Scanner} {i : Item}

theorem countedInside (counted : Counted text m) (steps : Steps m i m')
    (going : i.token.category ≠ .endFile) :
    m.line + m.rest.count '\n' = 1 + text.toList.count '\n' := by
  refine counted.resolve_right fun last => ?_
  cases steps with
  | lexeme l shorter =>
    rw [last.1] at shorter
    cases shorter
  | lineEnd problem shorter =>
    rw [last.1] at shorter
    cases shorter
  | lastLine problem breaks inside => cases last.2.symm.trans (inside last.1)
  | textEnd => exact going rfl

theorem countedStep (counted : Counted text m) (steps : Steps m i m')
    (going : i.token.category ≠ .endFile) : Counted text m' := by
  have total := countedInside counted steps going
  cases steps with
  | lexeme l shorter breaks => exact .inl (breaks ▸ total)
  | @lineEnd problem rest shorter breaks =>
    refine .inl ?_
    change m.line + 1 + rest.count '\n' = _
    omega
  | lastLine => exact .inr ⟨rfl, rfl⟩
  | textEnd => exact absurd rfl going

theorem stepsLine (steps : Steps m i m') : i.token.line = m.line := by
  cases steps with
  | lexeme l => exact lexemeLine m.line l
  | lineEnd => rfl
  | lastLine => rfl
  | textEnd => rfl

theorem beginsLine {n : Nat} (there : At text n (skipBlanks m.rest)) (counted : Counted text m)
    (steps : Steps m i m') (going : i.token.category ≠ .endFile) :
    i.token.line = 1 + ((bytes text).take n).count 10 := by
  have total := countedInside counted steps going
  have breaks := atCount there
  rw [countSkip] at breaks
  rw [stepsLine steps]
  omega

theorem countedRoom (counted : Counted text m)
    (few : text.toList.count '\n' < 4294967294) :
    m.line + 1 < 4294967296 ∨ m.rest = [] ∧ m.atLineStart = true :=
  counted.imp_left fun total => by omega

theorem stepsTextEnd (steps : Steps m i m') (ended : i.token.category = .endFile) :
    i = .textEnd m.line := by
  cases steps with
  | lexeme l => exact absurd ended (lexemeCategory m.line l).2
  | lineEnd => cases ended
  | lastLine => cases ended
  | textEnd => rfl

theorem stepsPending (steps : Steps m i m') : m'.pending = m.pending := by
  cases steps <;> rfl

theorem itemsPending (m : Scanner) (pending : List Diagnostic) (finished : Bool) :
    {m with pending, finished : Scanner}.items = m.items := by
  rw [itemsText, itemsText]

end

inductive Scanner.Yields : Scanner → List Token → Scanner → Prop where
  | done {m : Scanner} (stop : m.next? = (none, m)) : Yields m [] m
  | more {m m' last : Scanner} {t : Token} {ts : List Token} (step : m.next? = (some t, m'))
      (later : Yields m' ts last) : Yields m (t :: ts) last

namespace ByteScanner

inductive Gives (text : String) : ByteScanner → List (Nat × Token) → ByteScanner → Prop where
  | done {s : ByteScanner} (stop : s.next text = .ok (none, s)) : Gives text s [] s
  | more {s begins s' last : ByteScanner} {t : Token} {found : List (Nat × Token)}
      (skipped : s.skip text = .ok begins) (step : s.next text = .ok (some t, s'))
      (later : Gives text s' found last) : Gives text s ((begins.position, t) :: found) last

section
variable {text : String} {s : ByteScanner} {m m' : Scanner} {i : Item}

theorem nextItem (fresh : m.finished = false) (taken : m.item = (i, m')) :
    m.next? = (some i.token, {m' with
      pending := m.pending ++ i.diagnostic?.toList
      finished := i.token.category == .endFile}) := by
  rw [← stepsPending (takenSteps taken)]
  simp only [Scanner.next?, Scanner.token, fresh, taken, Bool.false_eq_true, if_false]

theorem nextFollows (stands : Stands text s m) (fresh : m.finished = false)
    (room : m.line + 1 < 4294967296 ∨ m.rest = [] ∧ m.atLineStart = true) :
    ∃ s', s.next text = .ok (m.next?.1, s') ∧ Stands text s' m.next?.2 := by
  obtain ⟨s', step, after⟩ := tokenFollows stands room
  have told : m.next? = (some m.token.1, {m.token.2 with
      finished := m.token.1.category == .endFile}) := by
    simp only [Scanner.next?, fresh, Bool.false_eq_true, if_false]
  rw [told]
  refine ⟨{s' with finished := m.token.1.category == .endFile}, ?_, after.here, after.line, after.start,
    rfl, after.pending⟩
  simp only [next, stands.finished, fresh, step, Bool.false_eq_true, if_false, bind, Except.bind]

theorem givesItems {s : ByteScanner} {m : Scanner} (few : text.toList.count '\n' < 4294967294)
    (stands : Stands text s m) (fresh : m.finished = false) (counted : Counted text m) :
    ∃ found last ended, Gives text s found last ∧ m.Yields (m.items.map Item.token) ended ∧
      found.map Prod.snd = m.items.map Item.token ∧ last.pending = ended.pending ∧
      ended.pending = m.pending ++ m.items.filterMap Item.diagnostic? ∧
      ∀ f ∈ found, f.2.category ≠ .endFile → f.2.line = 1 + ((bytes text).take f.1).count 10 := by
  obtain ⟨n, skipped, there⟩ := skipComments stands.here
  obtain ⟨i, m', taken⟩ : ∃ i m', m.item = (i, m') := ⟨_, _, rfl⟩
  obtain ⟨s', step, after⟩ := nextFollows stands fresh (countedRoom counted few)
  have next := nextItem fresh taken
  rw [next] at step after
  have steps := takenSteps taken
  have begins := beginsLine there counted steps
  by_cases ends : i.token.category = .endFile
  · have finished := beq_iff_eq.mpr ends
    have items : m.items = [i] := by
      obtain rfl := stepsTextEnd steps ends
      exact itemsStop taken
    have quiet : i.diagnostic?.toList = [i].filterMap Item.diagnostic? := by
      obtain rfl := stepsTextEnd steps ends
      rfl
    rw [items, ← quiet]
    exact ⟨_, s', _, .more skipped step (.done (if_pos (after.finished.trans finished))),
      .more next (.done (if_pos finished)), rfl, after.pending, rfl,
      List.forall_mem_singleton.mpr begins⟩
  · have going : ∀ line, i ≠ .textEnd line := fun line same => ends (same ▸ rfl)
    have less := Scanner.itemBudget taken going
    have counts : Counted text m' := countedStep counted steps ends
    obtain ⟨found, last, ended, gives, yields, same, pending, all, numbered⟩ := givesItems few after
      (beq_eq_false_iff_ne.mpr ends) counts
    rw [itemsPending] at yields same all
    rw [itemsStep taken going]
    refine ⟨_, last, ended, .more skipped step gives, .more next yields, congrArg (List.cons _) same,
      pending, ?_, List.forall_mem_cons.mpr ⟨begins, numbered⟩⟩
    rw [all, List.append_assoc]
    cases told : i.diagnostic? with
    | none =>
      rw [List.filterMap_cons_none told]
      rfl
    | some d =>
      rw [List.filterMap_cons_some told]
      rfl
termination_by m.budget

end
end ByteScanner

/-- A text of fewer than 4294967294 line breaks is read off its bytes to the end without a mishap, in
no more tokens than two above its bytes. The last token and no other is the end of the text, behind the
end of a line. Each is numbered by the ends of lines before it, which but for the end of the text are the
line breaks before the byte where it begins. The words that cannot be read are told in the order of
their lines, each line at most once, and the token that ends such a line is the last with its number. -/
theorem tokenStreamEnds (text : String) (few : text.toList.count '\n' < 4294967294) :
    ∃ found last ended, ByteScanner.Gives text {} found last ∧
      (Scanner.ofText text).Yields (tokens text) ended ∧ found.map Prod.snd = tokens text ∧
      last.pending = lexicalDiagnostics text ∧ ended.pending = lexicalDiagnostics text ∧
      found.length ≤ (bytes text).length + 2 ∧
      (∃ front n, tokens text =
          front ++ [{category := .newline, line := n}, {category := .endFile, line := n + 1}] ∧
        ∀ t ∈ front, t.category ≠ .endFile) ∧
      (∀ before t after, tokens text = before ++ t :: after →
        t.line = 1 + before.countP (·.category == .newline)) ∧
      (∀ f ∈ found, f.2.category ≠ .endFile → f.2.line = 1 + ((bytes text).take f.1).count 10) ∧
      (lexicalDiagnostics text).Pairwise (·.line < ·.line) ∧
      ∀ d ∈ lexicalDiagnostics text, ∃ before after,
        tokens text = before ++ {category := .newline, line := d.line} :: after ∧
          ∀ t ∈ after, t.line ≠ d.line := by
  have stream := itemsStream (.ofText text)
  obtain ⟨found, last, ended, gives, yields, same, pending, all, numbered⟩ :=
    ByteScanner.givesItems few (ByteScanner.standsStart text) rfl (.inl rfl)
  refine ⟨found, last, ended, gives, yields, same, pending.trans all, all, ?_, ?_,
    fun before t after split => streamNumbered stream split, numbered, streamErrors stream,
    fun d told => streamErrorEnds stream told⟩
  · calc found.length = (found.map Prod.snd).length := by rw [List.length_map]
      _ = (Scanner.ofText text).items.length := by rw [same, List.length_map]
      _ ≤ text.toList.length + 2 := itemsLength _
      _ ≤ (bytes text).length + 2 := by
        rw [bytesEncode]
        exact Nat.add_le_add_right (encodeLength _) 2
  · obtain ⟨inside, -⟩ | ⟨front, n, problem, split, going⟩ := streamEnds stream
    · cases inside
    · refine ⟨front.map Item.token, n, ?_, List.forall_mem_map.mpr going⟩
      rw [tokens, items, split, List.map_append]
      rfl

def wideText : String := "nop é\n// ü\nadd"

theorem wideTextEnds : wideText.toList.count '\n' < 4294967294 ∧
    tokens wideText = [.ofLexeme 1 (.op .nop), {category := .newline, line := 1},
      {category := .newline, line := 2}, .ofLexeme 3 (.op .add), {category := .newline, line := 3},
      {category := .endFile, line := 4}] ∧
    lexicalDiagnostics wideText = [⟨1, .lexical (.invalidChar 'é')⟩] ∧
    ∃ found last, ByteScanner.Gives wideText {} found last ∧ found.map Prod.snd = tokens wideText ∧
      last.pending = lexicalDiagnostics wideText ∧ found.length ≤ 16 + 2 := by
  have few : wideText.toList.count '\n' < 4294967294 := by decide +kernel
  have size : (bytes wideText).length = 16 := by decide +kernel
  obtain ⟨found, last, -, gives, -, same, told, -, short, -⟩ := tokenStreamEnds wideText few
  exact ⟨few, by decide +kernel, by decide +kernel, found, last, gives, same, told, size ▸ short⟩

end Straightline.Source
