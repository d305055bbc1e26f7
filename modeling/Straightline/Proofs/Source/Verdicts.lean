import Straightline.Proofs.Entries
import Straightline.Source.Parser

/-! The verdicts on the lines of a text. Each line is judged by its words alone, and what the parser
makes of a text is the list of these verdicts: the token that it holds ahead, the errors that it takes
over with it and its way back after an error never carry over to another line. -/
namespace Straightline.Source

structure Refusal where
  error : SyntaxError
  rest : List Lexeme
  deriving DecidableEq, Repr

def constant (op : Opcode) : List Lexeme → Except Refusal (Word × List Lexeme)
  | .constant v :: rest => .ok (v, rest)
  | rest => .error ⟨.missing .constant op, rest⟩

def register (part : Part) (op : Opcode) : List Lexeme → Except Refusal (SourceReg × List Lexeme)
  | .register r :: rest => .ok (r, rest)
  | rest => .error ⟨.missing part op, rest⟩

def arrow (op : Opcode) : List Lexeme → Except Refusal (List Lexeme)
  | .into :: rest => .ok rest
  | rest => .error ⟨.missing .arrow op, rest⟩

def comma (op : Opcode) : List Lexeme → Except Refusal (List Lexeme)
  | .comma :: rest => .ok rest
  | rest => .error ⟨.missing .comma op, rest⟩

def operands (line : Nat) (op : Opcode) (rest : List Lexeme) :
    Except Refusal (Instr × List Lexeme) := do
  match op with
  | .loadI =>
    let (c, rest) ← constant op rest
    let rest ← arrow op rest
    let (target, rest) ← register .destination op rest
    .ok (.loadI line c target, rest)
  | .load =>
    let (address, rest) ← register .source op rest
    let rest ← arrow op rest
    let (target, rest) ← register .destination op rest
    .ok (.load line address target, rest)
  | .store =>
    let (value, rest) ← register .source op rest
    let rest ← arrow op rest
    let (address, rest) ← register .destination op rest
    .ok (.store line value address, rest)
  | .add | .sub | .mult | .lshift | .rshift =>
    let (left, rest) ← register .firstSource op rest
    let rest ← comma op rest
    let (right, rest) ← register .secondSource op rest
    let rest ← arrow op rest
    let (target, rest) ← register .destination op rest
    .ok (.ternary line op left right target, rest)
  | .output =>
    let (c, rest) ← constant op rest
    .ok (.output line c, rest)
  | .nop => .ok (.nop line, rest)

def operation (line : Nat) : List Lexeme → Except Refusal Instr
  | .op o :: words => do
    let (i, rest) ← operands line o words
    if rest.isEmpty then .ok i else .error ⟨.extra o, rest⟩
  | words => .error ⟨.unrecognized, words⟩

structure Verdict where
  instr : Option Instr
  diagnostics : List Diagnostic
  deriving DecidableEq, Repr

/-- A word that could not be read is met when the words before it are used up, so it is reported
after an error that shows earlier on its line. -/
def judge (line : Nat) (words : List Lexeme) (problem : Option LexicalError) : Verdict :=
  let unread := problem.toList.map fun e => Diagnostic.mk line (.lexical e)
  if words.isEmpty then ⟨none, unread⟩ else
    match operation line words with
    | .ok i => ⟨some i, unread⟩
    | .error r =>
      let refused := [Diagnostic.mk line (.grammar r.error)]
      ⟨none, if r.rest.isEmpty then unread ++ refused else refused ++ unread⟩

def verdicts (words : List Lexeme) : List Item → List Verdict
  | [] => []
  | .lexeme _ l :: rest => verdicts (l :: words) rest
  | .lineEnd line problem :: rest => judge line words.reverse problem :: verdicts [] rest
  | .textEnd line :: rest => judge line words.reverse none :: verdicts [] rest

def rowItems (n : Nat) (words : List Lexeme) (problem : Option LexicalError) (later : List Item) :
    List Item :=
  words.map (.lexeme n) ++ .lineEnd n problem :: later

inductive Rows : List Item → Prop where
  | textEnd (n : Nat) : Rows [.textEnd n]
  | row (n : Nat) (words : List Lexeme) (problem : Option LexicalError) {later : List Item}
      (rows : Rows later) : Rows (rowItems n words problem later)

section
variable {s s' : Scanner} {i j : Item} {is : List Item} {p q : Parser}

theorem itemsStep (step : s.item = (i, s')) (going : ∀ line, i ≠ .textEnd line) :
    s.items = i :: s'.items := by
  rw [Scanner.items]
  split
  all_goals
    rename_i taken
    obtain ⟨rfl, rfl⟩ := Prod.mk.inj (step.symm.trans taken)
  · exact absurd rfl (going _)
  · rfl
  · rfl

theorem itemsStop {line : Nat} (step : s.item = (.textEnd line, s')) :
    s.items = [.textEnd line] := by
  rw [Scanner.items]
  split
  all_goals
    rename_i taken
    cases step.symm.trans taken
  rfl

theorem itemPending (step : s.item = (i, s')) : s'.pending = s.pending := by
  unfold Scanner.item Scanner.endLine at step
  split at step
  case h_4 => split at step <;> cases step <;> rfl
  all_goals cases step; rfl

theorem itemsRows (s : Scanner) : Rows s.items ∧ (s.atLineStart = false →
    ∃ words problem later, s.items = rowItems s.line words problem later ∧ Rows later) := by
  fun_induction Scanner.items s with
  | case1 s line s' taken =>
    unfold Scanner.item Scanner.endLine at taken
    split at taken
    case h_4 =>
      split at taken
      · rename_i start
        exact ⟨.textEnd _, fun inside => by simp [inside] at start⟩
      · cases taken
    all_goals cases taken
  | case2 s line l s' taken ih =>
    unfold Scanner.item Scanner.endLine at taken
    split at taken
    case h_1 =>
      cases taken
      obtain ⟨words, problem, later, same, rows⟩ := ih.2 rfl
      rw [same]
      exact ⟨.row s.line (l :: words) problem rows, fun _ => ⟨l :: words, problem, later, rfl, rows⟩⟩
    case h_4 => split at taken <;> cases taken
    all_goals cases taken
  | case3 s line problem s' taken ih =>
    unfold Scanner.item Scanner.endLine at taken
    split at taken
    case h_1 => cases taken
    case h_4 =>
      split at taken <;> cases taken
      exact ⟨.row _ [] _ ih.1, fun _ => ⟨[], _, _, rfl, ih.1⟩⟩
    all_goals
      cases taken
      exact ⟨.row _ [] _ ih.1, fun _ => ⟨[], _, _, rfl, ih.1⟩⟩

structure Ahead (p : Parser) (i : Item) (later : List Item) : Prop where
  tok : p.tok = i.token
  taken : p.scanner.pending = []
  items : (∀ line, i ≠ .textEnd line) → p.scanner.items = later

theorem takenAhead (pending : s.pending = []) (left : s.items = i :: is) :
    s.token.1 = i.token ∧ s.token.2.pending = i.diagnostic?.toList ∧
      ((∀ line, i ≠ .textEnd line) → {s.token.2 with pending := []}.items = is) := by
  cases step : s.item with
  | mk j s' =>
    have kept := (itemPending step).trans pending
    have told : s.token = (j.token, {s' with pending := j.diagnostic?.toList}) := by
      simp only [Scanner.token, step, kept, List.nil_append]
    have cleared : {s' with pending := []} = s' := by rw [← kept]
    rw [told]
    by_cases last : ∃ line, j = .textEnd line
    · obtain ⟨line, rfl⟩ := last
      rw [itemsStop step] at left
      obtain ⟨rfl, rfl⟩ := List.cons.inj left
      exact ⟨rfl, rfl, fun going => absurd rfl (going line)⟩
    · rw [itemsStep step fun line same => last ⟨line, same⟩] at left
      obtain ⟨rfl, rfl⟩ := List.cons.inj left
      exact ⟨rfl, rfl, fun _ => congrArg Scanner.items cleared⟩

theorem advanceAhead (ahead : Ahead p i (j :: is)) (going : ∀ line, i ≠ .textEnd line) :
    Ahead p.advance j is ∧ p.advance.block = p.block ∧
      p.advance.errors = p.errors ++ j.diagnostic?.toList := by
  obtain ⟨tok, found, left⟩ := takenAhead ahead.taken (ahead.items going)
  exact ⟨⟨tok, rfl, left⟩, rfl, congrArg (p.errors ++ ·) found⟩

theorem ofTextAhead {text : String} (left : items text = i :: is) :
    Ahead (Parser.ofText text) i is ∧ (Parser.ofText text).block = .empty ∧
      (Parser.ofText text).errors = i.diagnostic?.toList := by
  obtain ⟨tok, found, left⟩ := takenAhead (s := .ofText text) rfl left
  exact ⟨⟨tok, rfl, left⟩, rfl, found⟩

end

structure Row where
  line : Nat
  problem : Option LexicalError
  later : List Item
  block : Block
  errors : List Diagnostic

namespace Row

def unread (row : Row) : List Diagnostic :=
  row.problem.toList.map fun e => ⟨row.line, .lexical e⟩

inductive At (row : Row) : Parser → List Lexeme → Prop where
  | word {p : Parser} {w : Lexeme} {words : List Lexeme}
      (ahead : Ahead p (.lexeme row.line w) (rowItems row.line words row.problem row.later))
      (block : p.block = row.block) (errors : p.errors = row.errors) : At row p (w :: words)
  | lineEnd {p : Parser} (ahead : Ahead p (.lineEnd row.line row.problem) row.later)
      (block : p.block = row.block) (errors : p.errors = row.errors ++ row.unread) : At row p []

/-- The parser went as the words go: it read what they say, or stopped where they are refused. -/
inductive Goes (row : Row) {σ α : Type} (reads : σ → α → List Lexeme → Prop) :
    Except Refusal σ → EStateM.Result SyntaxError Parser α → Prop where
  | ok {s : σ} {a : α} {p : Parser} {words : List Lexeme} (said : reads s a words)
      (stands : row.At p words) : Goes row reads (.ok s) (.ok a p)
  | error {r : Refusal} {p : Parser} (stands : row.At p r.rest) :
      Goes row reads (.error r) (.error r.error p)

section
variable {row : Row} {p : Parser} {w : Lexeme} {words : List Lexeme} {σ τ α β : Type}
  {reads : σ → α → List Lexeme → Prop} {reads' : τ → β → List Lexeme → Prop}

theorem unreadItem (row : Row) :
    (Item.lineEnd row.line row.problem).diagnostic?.toList = row.unread := by
  unfold unread
  cases row.problem <;> rfl

theorem atAdvance (stands : row.At p (w :: words)) : row.At p.advance words := by
  cases stands with
  | word ahead block errors =>
    have going : ∀ line, Item.lexeme row.line w ≠ .textEnd line := by intro line same; cases same
    cases words with
    | nil =>
      obtain ⟨next, kept, told⟩ := advanceAhead (ahead : Ahead p _ (.lineEnd _ _ :: _)) going
      refine .lineEnd next (kept.trans block) ?_
      rw [told, errors, unreadItem]
    | cons w' words =>
      obtain ⟨next, kept, told⟩ := advanceAhead (ahead : Ahead p _ (.lexeme _ _ :: _)) going
      exact .word next (kept.trans block) (by rw [told, errors]; exact List.append_nil _)

theorem atWord (stands : row.At p (w :: words)) : p.tok = .ofLexeme row.line w := by
  cases stands with
  | word ahead => exact ahead.tok

theorem atEnd (stands : row.At p []) : p.tok = {category := .newline, line := row.line} := by
  cases stands with
  | lineEnd ahead => exact ahead.tok

theorem opCategory (op : Opcode) : Category.ofOpcode op ≠ .const ∧ Category.ofOpcode op ≠ .reg ∧
    Category.ofOpcode op ≠ .comma ∧ Category.ofOpcode op ≠ .into ∧
      Category.ofOpcode op ≠ .newline ∧ Category.ofOpcode op ≠ .endFile := by
  cases op <;> decide

theorem ofLexemeInside (line : Nat) (w : Lexeme) : (Token.ofLexeme line w).category ≠ .newline ∧
    (Token.ofLexeme line w).category ≠ .endFile ∧ (Token.ofLexeme line w).line = line := by
  cases w <;> simp [Token.ofLexeme, opCategory]

theorem atLineEnd (stands : row.At p words) : p.atLineEnd = words.isEmpty := by
  cases words with
  | nil =>
    rw [Parser.atLineEnd, atEnd stands]
    rfl
  | cons w words =>
    obtain ⟨newline, endFile, -⟩ := ofLexemeInside row.line w
    simp [Parser.atLineEnd, atWord stands, newline, endFile]

theorem goesBind {r : Except Refusal σ} {g : σ → Except Refusal τ} {x : Parsing α}
    {f : α → Parsing β} (first : row.Goes reads r (x p))
    (next : ∀ s a q words, reads s a words → row.At q words → row.Goes reads' (g s) (f a q)) :
    row.Goes reads' (r >>= g) ((x >>= f) p) := by
  simp only [bind, EStateM.bind, Except.bind]
  cases ran : x p with
  | ok a q =>
    rw [ran] at first
    cases first with
    | ok said stands => exact next _ _ _ _ said stands
  | error e q =>
    rw [ran] at first
    cases first with
    | error stands => exact .error stands

theorem goesReturn {r : Except Refusal σ} {x : Parsing α} {f : α → β}
    {reads' : σ → β → List Lexeme → Prop} (went : row.Goes reads r (x p))
    (same : ∀ s a words, reads s a words → reads' s (f a) words) :
    row.Goes reads' r ((x >>= fun a => pure (f a)) p) := by
  simp only [bind, EStateM.bind]
  cases ran : x p with
  | ok a q =>
    rw [ran] at went
    cases went with
    | ok said stands => exact .ok (same _ _ _ said) stands
  | error e q =>
    rw [ran] at went
    cases went with
    | error stands => exact .error stands

theorem goesExpect {category : Category} {part : Part} {op : Opcode} {s : σ}
    {found : σ → Word → List Lexeme → Prop} (stands : row.At p (w :: words))
    (fits : (Token.ofLexeme row.line w).category = category)
    (reads : found s (Token.ofLexeme row.line w).value words) :
    row.Goes found (.ok s) (Parsing.expect category part op p) := by
  rw [← atWord stands] at fits reads
  rw [Parsing.expectFound part op fits]
  exact .ok reads (atAdvance stands)

theorem goesMissing {category : Category} {part : Part} {op : Opcode}
    {found : σ → Word → List Lexeme → Prop} (stands : row.At p words)
    (differs : p.tok.category ≠ category) :
    row.Goes found (.error ⟨.missing part op, words⟩) (Parsing.expect category part op p) := by
  rw [Parsing.expectMissing part op differs]
  exact .error stands

theorem goesConstant (op : Opcode) (stands : row.At p words) :
    row.Goes (fun s c rest => s = (c, rest)) (constant op words)
      (Parsing.expect .const .constant op p) := by
  cases words with
  | nil => exact goesMissing stands (by simp [atEnd stands])
  | cons w words =>
    cases w with
    | constant v => exact goesExpect stands rfl rfl
    | op | register | comma | into =>
      exact goesMissing stands (by simp [atWord stands, Token.ofLexeme, opCategory])

theorem goesArrow (op : Opcode) (stands : row.At p words) :
    row.Goes (fun s _ rest => s = rest) (arrow op words) (Parsing.arrow op p) := by
  have went : row.Goes (fun s _ rest => s = rest) (arrow op words)
      (Parsing.expect .into .arrow op p) := by
    cases words with
    | nil => exact goesMissing stands (by simp [atEnd stands])
    | cons w words =>
      cases w with
      | into => exact goesExpect stands rfl rfl
      | op | constant | register | comma =>
        exact goesMissing stands (by simp [atWord stands, Token.ofLexeme, opCategory])
  exact goesReturn went fun s a rest same => same

theorem goesComma (op : Opcode) (stands : row.At p words) :
    row.Goes (fun s _ rest => s = rest) (comma op words) (Parsing.expect .comma .comma op p) := by
  cases words with
  | nil => exact goesMissing stands (by simp [atEnd stands])
  | cons w words =>
    cases w with
    | comma => exact goesExpect stands rfl rfl
    | op | constant | register | into =>
      exact goesMissing stands (by simp [atWord stands, Token.ofLexeme, opCategory])

theorem registerValue (line : Nat) (r : SourceReg) :
    Reg.ofNat? .source (Token.ofLexeme line (.register r)).value.toNat = some r := by
  have small : r.number < 4294967296 := Nat.lt_of_lt_of_le (Reg.numberLt r) (by decide)
  have value : (UInt32.ofNat r.number).toNat = r.number := UInt32.toNat_ofNat_of_lt small
  simp only [Token.ofLexeme, value, Reg.ofNatNumber]

theorem goesRegister (part : Part) (op : Opcode) (stands : row.At p words) :
    row.Goes (fun s r rest => r = some s.1 ∧ rest = s.2) (register part op words)
      (Parsing.register part op p) := by
  have went : row.Goes (fun s n rest => Reg.ofNat? .source n.toNat = some s.1 ∧ rest = s.2)
      (register part op words) (Parsing.expect .reg part op p) := by
    cases words with
    | nil => exact goesMissing stands (by simp [atEnd stands])
    | cons w words =>
      cases w with
      | register r => exact goesExpect stands rfl ⟨registerValue _ _, rfl⟩
      | op | constant | comma | into =>
        exact goesMissing stands (by simp [atWord stands, Token.ofLexeme, opCategory])
  exact goesReturn went fun s a rest same => same

theorem goesOperands (op : Opcode) (stands : row.At p words) :
    row.Goes (fun s i rest => s = (i, rest) ∧ i.opcode = op) (operands row.line op words)
      (Parsing.operands row.line op p) := by
  cases op with
  | loadI =>
    refine goesBind (goesConstant _ stands) ?_
    rintro _ c q rest rfl stands
    refine goesBind (goesArrow _ stands) ?_
    rintro _ _ q rest rfl stands
    refine goesBind (goesRegister _ _ stands) ?_
    rintro ⟨target, _⟩ _ q rest ⟨rfl, rfl⟩ stands
    exact .ok ⟨rfl, rfl⟩ stands
  | load | store =>
    refine goesBind (goesRegister _ _ stands) ?_
    rintro ⟨r, _⟩ _ q rest ⟨rfl, rfl⟩ stands
    refine goesBind (goesArrow _ stands) ?_
    rintro _ _ q rest rfl stands
    refine goesBind (goesRegister _ _ stands) ?_
    rintro ⟨target, _⟩ _ q rest ⟨rfl, rfl⟩ stands
    exact .ok ⟨rfl, rfl⟩ stands
  | add | sub | mult | lshift | rshift =>
    refine goesBind (goesRegister _ _ stands) ?_
    rintro ⟨left, _⟩ _ q rest ⟨rfl, rfl⟩ stands
    refine goesBind (goesComma _ stands) ?_
    rintro _ _ q rest rfl stands
    refine goesBind (goesRegister _ _ stands) ?_
    rintro ⟨right, _⟩ _ q rest ⟨rfl, rfl⟩ stands
    refine goesBind (goesArrow _ stands) ?_
    rintro _ _ q rest rfl stands
    refine goesBind (goesRegister _ _ stands) ?_
    rintro ⟨target, _⟩ _ q rest ⟨rfl, rfl⟩ stands
    exact .ok ⟨rfl, rfl⟩ stands
  | output =>
    refine goesBind (goesConstant _ stands) ?_
    rintro _ c q rest rfl stands
    exact .ok ⟨rfl, rfl⟩ stands
  | nop => exact .ok ⟨rfl, rfl⟩ stands

theorem goesWhole (stands : row.At p (w :: words)) :
    row.Goes (fun s i rest => s = i ∧ rest = []) (operation row.line (w :: words))
      (Parsing.wholeLine row.line p) := by
  cases w with
  | op op =>
    rw [Parsing.wholeLineKnown (by rw [atWord stands]; rfl)]
    refine goesBind (goesOperands op (atAdvance stands)) ?_
    rintro _ i q rest ⟨rfl, rfl⟩ stands
    have done := atLineEnd stands
    rw [Parsing.getBind, done]
    cases rest with
    | nil => exact .ok ⟨rfl, rfl⟩ stands
    | cons w rest => exact .error stands
  | constant | register | comma | into =>
    rw [Parsing.wholeLineUnrecognized (by rw [atWord stands]; rfl)]
    exact .error stands

theorem atLineEnds (stands : row.At p words) : row.At p.toLineEnd [] := by
  induction words generalizing p with
  | nil =>
    have done : p.atLineEnd = true := atLineEnd stands
    rwa [Parser.toLineEnd, if_pos done]
  | cons w words ih =>
    have inside : ¬ p.atLineEnd = true := by simp [atLineEnd stands]
    rw [Parser.toLineEnd, if_neg inside]
    exact ih (atAdvance stands)

theorem atRefused {e : Diagnostic} (stands : row.At p (w :: words)) :
    ({row with errors := row.errors ++ [e]} : Row).At {p with errors := p.errors ++ [e]}
      (w :: words) := by
  cases stands with
  | word ahead block errors => exact .word ⟨ahead.tok, ahead.taken, ahead.items⟩ block (by rw [errors])

theorem skipsNewline (newline : p.tok.category = .newline) :
    p.skipNewlines = p.advance.skipNewlines := by
  rw [Parser.skipNewlines, if_pos newline]

theorem recoverGoes (stands : row.At p words) (e : Diagnostic) :
    ∃ q, ({p with errors := p.errors ++ [e]} : Parser).recover.skipNewlines = q.skipNewlines ∧
      Ahead q (.lineEnd row.line row.problem) row.later ∧ q.block = row.block ∧
      q.errors = row.errors ++ if words.isEmpty then row.unread ++ [e] else [e] ++ row.unread := by
  have recovers : ∀ q : Parser, q.toLineEnd.tok.category = .newline →
      q.recover.skipNewlines = q.toLineEnd.skipNewlines := by
    intro q newline
    rw [skipsNewline newline, Parser.recover, if_pos newline]
  cases words with
  | nil =>
    have newline : p.tok.category = .newline := by rw [atEnd stands]
    have done : ({p with errors := p.errors ++ [e]} : Parser).atLineEnd = true := atLineEnd stands
    have here : ({p with errors := p.errors ++ [e]} : Parser).toLineEnd =
        {p with errors := p.errors ++ [e]} := by
      rw [Parser.toLineEnd, if_pos done]
    refine ⟨_, recovers _ (by rw [here]; exact newline), ?_⟩
    rw [here]
    cases stands with
    | lineEnd ahead block errors =>
      refine ⟨⟨ahead.tok, ahead.taken, ahead.items⟩, block, ?_⟩
      simp [errors]
  | cons w words =>
    have ends := atLineEnds (atRefused (e := e) stands)
    refine ⟨_, recovers _ (by rw [atEnd ends]), ?_⟩
    cases ends with
    | lineEnd ahead block errors =>
      refine ⟨ahead, block, errors.trans ?_⟩
      simp [unread]

/-- The line is left at its end, or one token on: either way the line that comes next is the same. -/
theorem lineGoes (stands : row.At p (w :: words)) :
    ∃ q, p.line.skipNewlines = q.skipNewlines ∧
      Ahead q (.lineEnd row.line row.problem) row.later ∧
      q.block = (judge row.line (w :: words) row.problem).instr.toList.foldl Chain.push row.block ∧
      q.errors = row.errors ++ (judge row.line (w :: words) row.problem).diagnostics := by
  have numbered : p.tok.line = row.line := by
    rw [atWord stands]
    exact (ofLexemeInside row.line w).2.2
  have went := goesWhole stands
  unfold Parser.line
  rw [numbered]
  cases read : operation row.line (w :: words) with
  | ok i =>
    rw [read] at went
    cases ran : Parsing.wholeLine row.line p with
    | error e q =>
      rw [ran] at went
      cases went
    | ok a q =>
      rw [ran] at went
      cases went with
      | ok said ends =>
        obtain ⟨rfl, rfl⟩ := said
        cases ends with
        | lineEnd ahead block errors =>
          refine ⟨_, rfl, ⟨ahead.tok, ahead.taken, ahead.items⟩, ?_, ?_⟩
          · simp [judge, read, block]
          · simp [judge, read, errors, unread]
  | error r =>
    rw [read] at went
    cases ran : Parsing.wholeLine row.line p with
    | ok a q =>
      rw [ran] at went
      cases went
    | error e q =>
      rw [ran] at went
      cases went with
      | error ends =>
        obtain ⟨t, skips, ahead, block, errors⟩ := recoverGoes ends ⟨row.line, .grammar r.error⟩
        refine ⟨t, skips, ahead, ?_, ?_⟩
        · simp [judge, read, block]
        · rw [errors]
          simp [judge, read, unread]

end
end Row

theorem verdictsWords (n : Nat) (found earlier : List Lexeme) (is : List Item) :
    verdicts earlier (found.map (.lexeme n) ++ is) = verdicts (found.reverse ++ earlier) is := by
  induction found generalizing earlier with
  | nil => rfl
  | cons l found ih =>
    rw [List.map_cons, List.cons_append, verdicts, ih, List.reverse_cons, List.append_assoc]
    rfl

section
variable {p q : Parser} {block : Block} {errors : List Diagnostic} {v : Verdict}
  {found : List Verdict}

theorem runStops (last : p.tok.category = .endFile) : p.run = p := by
  have here : p.skipNewlines = p := by rw [Parser.skipNewlines, if_neg (by simp [last])]
  rw [Parser.run, here, if_pos last]

theorem runLine (newline : p.tok.category ≠ .newline) (more : p.tok.category ≠ .endFile) :
    p.run = p.line.run := by
  have here : p.skipNewlines = p := by rw [Parser.skipNewlines, if_neg newline]
  rw [Parser.run, here, if_neg more]

theorem runSkips (same : p.skipNewlines = q.skipNewlines) : p.run = q.run := by
  unfold Parser.run
  rw [same]

structure Ends (p : Parser) (block : Block) (errors : List Diagnostic) (found : List Verdict) :
    Prop where
  block : p.block = (found.filterMap Verdict.instr).foldl Chain.push block
  errors : p.errors = errors ++ found.flatMap Verdict.diagnostics

theorem endsCons (ends : Ends p (v.instr.toList.foldl Chain.push block) (errors ++ v.diagnostics) found) :
    Ends p block errors (v :: found) := by
  refine ⟨ends.block.trans ?_, ends.errors.trans ?_⟩
  · cases instr : v.instr <;> simp [instr]
  · rw [List.flatMap_cons, List.append_assoc]

def Parses (is : List Item) : Prop :=
  ∀ (p : Parser) (i : Item) (later : List Item) (errors : List Diagnostic), is = i :: later →
    Ahead p i later → p.errors = errors ++ i.diagnostic?.toList →
      Ends p.run p.block errors (verdicts [] is)

theorem rowsNonempty {is : List Item} (rows : Rows is) : ∃ i later, is = i :: later := by
  cases rows with
  | textEnd n => exact ⟨_, _, rfl⟩
  | row n words problem =>
    cases words with
    | nil => exact ⟨_, _, rfl⟩
    | cons w words => exact ⟨_, _, rfl⟩

theorem parsesPast {n : Nat} {problem : Option LexicalError} {later : List Item}
    (rows : Rows later) (parses : Parses later) (ahead : Ahead p (.lineEnd n problem) later) :
    Ends p.run p.block p.errors (verdicts [] later) := by
  obtain ⟨i, is, rfl⟩ := rowsNonempty rows
  obtain ⟨next, block, errors⟩ := advanceAhead ahead (by intro line same; cases same)
  have newline : p.tok.category = .newline := by rw [ahead.tok]; rfl
  rw [runSkips (Row.skipsNewline newline), ← block]
  exact parses p.advance i is p.errors rfl next errors

theorem rowsParse {is : List Item} (rows : Rows is) : Parses is := by
  induction rows with
  | textEnd n =>
    rintro p i later errors same ahead told
    obtain ⟨rfl, rfl⟩ := List.cons.inj same
    rw [runStops (by rw [ahead.tok]; rfl)]
    exact ⟨rfl, told⟩
  | @row n words problem later rows ih =>
    rintro p i is errors same ahead told
    rw [rowItems, verdictsWords, List.append_nil, verdicts, List.reverse_reverse]
    refine endsCons ?_
    cases words with
    | nil =>
      obtain ⟨rfl, rfl⟩ := List.cons.inj same
      have ends := parsesPast rows ih ahead
      rw [told, Row.unreadItem ⟨n, problem, later, p.block, errors⟩] at ends
      exact ends
    | cons w words =>
      obtain ⟨rfl, rfl⟩ := List.cons.inj same
      have stands : (Row.mk n problem later p.block errors).At p (w :: words) :=
        .word ahead rfl (by rw [told]; exact List.append_nil _)
      obtain ⟨newline, more, -⟩ := Row.ofLexemeInside n w
      obtain ⟨q, skips, past, block, reported⟩ := Row.lineGoes stands
      rw [runLine (by rw [ahead.tok]; exact newline) (by rw [ahead.tok]; exact more), runSkips skips]
      have ends := parsesPast rows ih past
      rwa [block, reported] at ends

end

theorem runVerdicts (text : String) :
    Ends (Parser.ofText text).run .empty [] (verdicts [] (items text)) := by
  obtain ⟨rows, -⟩ := itemsRows (.ofText text)
  obtain ⟨i, later, left⟩ := rowsNonempty rows
  obtain ⟨ahead, block, errors⟩ := ofTextAhead left
  exact block ▸ rowsParse rows _ i later [] left ahead errors

theorem diagnosticsVerdicts (text : String) :
    diagnostics text = (verdicts [] (items text)).flatMap Verdict.diagnostics :=
  (runVerdicts text).errors

theorem parseVerdicts (text : String) : parse text =
    if (diagnostics text).isEmpty then
      .ok (.ofList ((verdicts [] (items text)).filterMap Verdict.instr))
    else .error (diagnostics text) := by
  have read : (Parser.ofText text).run.block =
      .ofList ((verdicts [] (items text)).filterMap Verdict.instr) := (runVerdicts text).block
  rw [← read]
  rfl

end Straightline.Source
