import Straightline.Block
import Straightline.Source.Scanner

/-! Operations, one to a line. The parser looks at one token ahead of what it has read. A line that is
not an operation is reported and left out; the lines around it are read all the same, so one pass
finds every bad line. What the scanner reports is taken over when the token it came with is looked
at. -/
namespace Straightline.Source

structure Parser where
  scanner : Scanner
  tok : Token
  block : Block := .empty
  errors : List Diagnostic := []
  deriving Repr

abbrev Parsing := EStateM SyntaxError Parser

namespace Parser

def ofText (text : String) : Parser :=
  let (tok, scanner) := (Scanner.ofText text).token
  let (errors, scanner) := scanner.takeDiagnostics
  {scanner, tok, errors}

def advance (p : Parser) : Parser :=
  let (tok, scanner) := p.scanner.token
  let (found, scanner) := scanner.takeDiagnostics
  {p with scanner, tok, errors := p.errors ++ found}

def atLineEnd (p : Parser) : Bool := p.tok.category == .newline || p.tok.category == .endFile

def budget (p : Parser) : Nat := if p.tok.category = .endFile then 0 else p.scanner.budget + 1

theorem advanceBudget {p : Parser} (going : p.tok.category ≠ .endFile) :
    p.advance.budget < p.budget := by
  cases step : p.scanner.item with
  | mk i s =>
    have token : p.advance.tok = i.token := by simp [advance, Scanner.token, step]
    have left : p.advance.scanner.budget = s.budget := by
      simp [advance, Scanner.token, Scanner.takeDiagnostics, step, Scanner.budget]
    simp only [budget, going, token, left, ↓reduceIte]
    by_cases last : i.token.category = .endFile
    · simp [last]
    · have more := Scanner.itemBudget step fun line last' => last (by rw [last']; rfl)
      simp only [last, ↓reduceIte]
      omega

theorem atLineEndIff {p : Parser} :
    p.atLineEnd = true ↔ p.tok.category = .newline ∨ p.tok.category = .endFile := by
  simp [atLineEnd]

def skipNewlines (p : Parser) : Parser :=
  if p.tok.category = .newline then p.advance.skipNewlines else p
termination_by p.budget
decreasing_by exact advanceBudget (by simp [*])

def toLineEnd (p : Parser) : Parser :=
  if p.atLineEnd then p else p.advance.toLineEnd
termination_by p.budget
decreasing_by exact advanceBudget fun last => by simp_all [atLineEnd]

def recover (p : Parser) : Parser :=
  let p := p.toLineEnd
  if p.tok.category = .newline then p.advance else p

end Parser

namespace Parsing
open Straightline.Source.Parser

def expect (category : Category) (part : Part) (op : Opcode) : Parsing Word := do
  let p ← get
  if p.tok.category ≠ category then throw (.missing part op)
  set p.advance
  pure p.tok.value

def register (part : Part) (op : Opcode) : Parsing (Option SourceReg) := do
  let n ← expect .reg part op
  pure (Reg.ofNat? .source n.toNat)

def arrow (op : Opcode) : Parsing Unit := do
  let _ ← expect .into .arrow op

def operands (line : Nat) (op : Opcode) : Parsing Instr := do
  match op with
  | .loadI =>
    let c ← expect .const .constant op
    arrow op
    let target ← register .destination op
    pure (.loadI line c target)
  | .load =>
    let address ← register .source op
    arrow op
    let target ← register .destination op
    pure (.load line address target)
  | .store =>
    let value ← register .source op
    arrow op
    let address ← register .destination op
    pure (.store line value address)
  | .add | .sub | .mult | .lshift | .rshift =>
    let left ← register .firstSource op
    let _ ← expect .comma .comma op
    let right ← register .secondSource op
    arrow op
    let target ← register .destination op
    pure (.ternary line op left right target)
  | .output =>
    let c ← expect .const .constant op
    pure (.output line c)
  | .nop => pure (.nop line)

def operation (line : Nat) : Parsing Instr := do
  let p ← get
  match p.tok.opcode with
  | none => throw .unrecognized
  | some op =>
    set p.advance
    operands line op

def wholeLine (line : Nat) : Parsing Instr := do
  let i ← operation line
  if (← get).atLineEnd then pure i else throw (.extra i.opcode)

end Parsing

namespace Parser

def line (p : Parser) : Parser :=
  match Parsing.wholeLine p.tok.line p with
  | .ok i p => {p with block := p.block.push i}
  | .error e q => ({q with errors := q.errors ++ [⟨p.tok.line, .grammar e⟩]} : Parser).recover

theorem skipNewlinesBudget (p : Parser) : p.skipNewlines.budget ≤ p.budget := by
  fun_induction skipNewlines p with
  | case1 p newline ih =>
    have less : p.advance.budget < p.budget := advanceBudget (by simp [newline])
    omega
  | case2 => exact Nat.le_refl _

theorem skipNewlinesPast (p : Parser) : p.skipNewlines.tok.category ≠ .newline := by
  fun_induction skipNewlines p with
  | case1 p newline ih => exact ih
  | case2 p other => exact other

theorem toLineEndBudget (p : Parser) : p.toLineEnd.budget ≤ p.budget := by
  fun_induction toLineEnd p with
  | case1 => exact Nat.le_refl _
  | case2 p inside ih =>
    have less : p.advance.budget < p.budget :=
      advanceBudget fun last => inside (atLineEndIff.mpr (.inr last))
    omega

theorem recoverBudget (p : Parser) : p.recover.budget ≤ p.toLineEnd.budget := by
  by_cases newline : p.toLineEnd.tok.category = .newline
  · rw [recover, if_pos newline]
    exact Nat.le_of_lt (advanceBudget (by simp [newline]))
  · exact Nat.le_of_eq (by rw [recover, if_neg newline])

theorem recoverShorter {p : Parser} (inside : ¬ p.atLineEnd = true) :
    p.recover.budget < p.budget := by
  have less : p.advance.budget < p.budget :=
    advanceBudget fun last => inside (atLineEndIff.mpr (.inr last))
  have rest := toLineEndBudget p.advance
  have whole := recoverBudget p
  rw [toLineEnd, if_neg inside] at whole
  omega

end Parser

namespace Parsing
open Straightline.Source.Parser

def leaves {α : Type} (x : Parsing α) (p : Parser) : Parser :=
  match x p with
  | .ok _ q | .error _ q => q

def Takes {α : Type} (x : Parsing α) : Prop := ∀ p, (x.leaves p).budget ≤ p.budget

variable {α β : Type}

theorem takesPure (a : α) : Takes (pure a : Parsing α) := fun _ => Nat.le_refl _

theorem takesBind {x : Parsing α} {f : α → Parsing β} (first : Takes x)
    (next : ∀ a, Takes (f a)) : Takes (x >>= f) := by
  intro p
  have before := first p
  simp only [leaves, bind, EStateM.bind] at before ⊢
  cases ran : x p with
  | ok a q =>
    rw [ran] at before
    exact Nat.le_trans (next a q) before
  | error e q =>
    rw [ran] at before
    exact before

section
variable {p : Parser} {category : Category} (part : Part) (op : Opcode)

theorem getBind (f : Parser → Parsing α) (p : Parser) : ((get : Parsing Parser) >>= f) p = f p p := rfl

theorem expectFound (found : p.tok.category = category) :
    expect category part op p = .ok p.tok.value p.advance := by
  unfold expect
  rw [getBind, if_neg (not_not_intro found)]
  rfl

theorem expectMissing (missing : p.tok.category ≠ category) :
    expect category part op p = .error (.missing part op) p := by
  unfold expect
  rw [getBind, if_pos missing]
  rfl

end

theorem takesExpect {category : Category} (inside : category ≠ .endFile) (part : Part) (op : Opcode) :
    Takes (expect category part op) := by
  intro p
  unfold leaves
  by_cases found : p.tok.category = category
  · have less : p.advance.budget < p.budget := advanceBudget (found ▸ inside)
    rw [expectFound part op found]
    exact Nat.le_of_lt less
  · exact Nat.le_of_eq (by rw [expectMissing part op found])

theorem takesRegister (part : Part) (op : Opcode) : Takes (register part op) :=
  takesBind (takesExpect (by decide) part op) fun _ => takesPure _

theorem takesArrow (op : Opcode) : Takes (arrow op) :=
  takesBind (takesExpect (by decide) .arrow op) fun _ => takesPure _

theorem takesOperands (line : Nat) (op : Opcode) : Takes (operands line op) := by
  cases op with
  | loadI =>
    exact takesBind (takesExpect (by decide) _ _) fun _ => takesBind (takesArrow _) fun _ =>
      takesBind (takesRegister _ _) fun _ => takesPure _
  | load | store =>
    exact takesBind (takesRegister _ _) fun _ => takesBind (takesArrow _) fun _ =>
      takesBind (takesRegister _ _) fun _ => takesPure _
  | add | sub | mult | lshift | rshift =>
    exact takesBind (takesRegister _ _) fun _ => takesBind (takesExpect (by decide) _ _) fun _ =>
      takesBind (takesRegister _ _) fun _ => takesBind (takesArrow _) fun _ =>
        takesBind (takesRegister _ _) fun _ => takesPure _
  | output => exact takesBind (takesExpect (by decide) _ _) fun _ => takesPure _
  | nop => exact takesPure _

theorem wholeLineUnrecognized {p : Parser} (unknown : p.tok.opcode = none) (line : Nat) :
    wholeLine line p = .error .unrecognized p := by
  have first : operation line p = .error .unrecognized p := by
    unfold operation
    rw [getBind, unknown]
    rfl
  simp only [wholeLine, bind, EStateM.bind, first]

theorem wholeLineKnown {p : Parser} {op : Opcode} (known : p.tok.opcode = some op) (line : Nat) :
    wholeLine line p = (do
      let i ← operands line op
      if (← get).atLineEnd then pure i else throw (.extra i.opcode) : Parsing Instr) p.advance := by
  have first : operation line p = operands line op p.advance := by
    unfold operation
    rw [getBind, known]
    rfl
  simp only [wholeLine, bind, EStateM.bind, first]

theorem wholeLineTakes {p : Parser} {op : Opcode} (known : p.tok.opcode = some op) (line : Nat) :
    ((wholeLine line).leaves p).budget ≤ p.advance.budget := by
  rw [leaves, wholeLineKnown known]
  refine takesBind (takesOperands line op) (fun i q => ?_) p.advance
  refine Nat.le_of_eq ?_
  rw [leaves, getBind]
  cases q.atLineEnd <;> rfl

end Parsing

namespace Parser

theorem lineBudget {p : Parser} (inside : ¬ p.atLineEnd = true) : p.line.budget < p.budget := by
  have rest : ∀ q : Parser, q.recover.budget ≤ q.budget := fun q =>
    Nat.le_trans (recoverBudget q) (toLineEndBudget q)
  unfold line
  cases known : p.tok.opcode with
  | none =>
    rw [Parsing.wholeLineUnrecognized known]
    exact recoverShorter inside
  | some op =>
    have taken := Parsing.wholeLineTakes known p.tok.line
    have less : p.advance.budget < p.budget :=
      advanceBudget fun last => inside (atLineEndIff.mpr (.inr last))
    unfold Parsing.leaves at taken
    cases ran : Parsing.wholeLine p.tok.line p with
    | ok i q =>
      rw [ran] at taken
      exact Nat.lt_of_le_of_lt taken less
    | error e q =>
      rw [ran] at taken
      exact Nat.lt_of_le_of_lt (Nat.le_trans (rest _) taken) less

def run (p : Parser) : Parser :=
  let q := p.skipNewlines
  if q.tok.category = .endFile then q else q.line.run
termination_by p.budget
decreasing_by
  have inside : ¬ p.skipNewlines.atLineEnd = true := fun done =>
    (atLineEndIff.mp done).elim (skipNewlinesPast p) (by assumption)
  exact Nat.lt_of_lt_of_le (lineBudget inside) (skipNewlinesBudget p)

end Parser

def diagnostics (text : String) : List Diagnostic := (Parser.ofText text).run.errors

def parse (text : String) : Except (List Diagnostic) Block :=
  let p := (Parser.ofText text).run
  if p.errors.isEmpty then .ok p.block else .error p.errors

end Straightline.Source
