import Straightline.Proofs.Source.LineGrammar

/-! Printing and reading undo each other. The text of an instruction is cut into the chunks it was put
together from, so its line says the instruction with the printed registers as source registers, and
the text of a block says its instructions line by line. -/
namespace Straightline

theorem Opcode.arithSlots : ∀ op ∈ [Opcode.add, .sub, .mult, .lshift, .rshift],
    op.slots = [.first, .second, .third] ∧ op.hasConstant = false := by
  decide

namespace Instr

variable {n : Naming} {i j : Instr} {slot : Slot} {line x : Nat}

def shown (n : Naming) (i : Instr) (slot : Slot) : Option Nat :=
  ((i.operand slot).reg (if i.inserted then .physical else n)).map Reg.number

def Shows (n : Naming) (i : Instr) : Prop := ∀ slot ∈ i.opcode.slots, (i.shown n slot).isSome

instance (n : Naming) (i : Instr) : Decidable (i.Shows n) :=
  inferInstanceAs (Decidable (∀ slot ∈ i.opcode.slots, (i.shown n slot).isSome))

def rereadOperand (n : Naming) (i : Instr) (slot : Slot) : Operand :=
  if slot ∈ i.opcode.slots then {source := (i.shown n slot).bind (Reg.ofNat? .source)} else {}

def reread (n : Naming) (line : Nat) (i : Instr) : Instr where
  line
  opcode := i.opcode
  constant := if i.opcode.hasConstant then i.constant else 0
  first := i.rereadOperand n .first
  second := i.rereadOperand n .second
  third := i.rereadOperand n .third

/-- `j` says on its line what was printed for `i`, and nothing else. -/
structure Echoes (n : Naming) (line : Nat) (i j : Instr) : Prop where
  given : j.inserted = false
  line : j.line = line
  opcode : j.opcode = i.opcode
  constant : i.opcode.hasConstant = true → j.constant = i.constant
  silent : i.opcode.hasConstant = false → j.constant = 0
  registers : ∀ slot ∈ i.opcode.slots, ∃ r : SourceReg, j.operand slot = {source := some r} ∧
    i.shown n slot = some r.number
  unused : ∀ slot, slot ∉ i.opcode.slots → j.operand slot = {}

theorem rereadSlot (n : Naming) (line : Nat) (i : Instr) (slot : Slot) :
    (i.reread n line).operand slot = i.rereadOperand n slot := by
  cases slot <;> rfl

theorem shownGiven (given : i.inserted = false) :
    i.shown n slot = ((i.operand slot).reg n).map Reg.number := by
  cases i
  cases given
  rfl

theorem shownSource (shown : i.shown n slot = some x) :
    ∃ r : SourceReg, Reg.ofNat? .source x = some r ∧ r.number = x := by
  obtain ⟨r, -, rfl⟩ := Option.map_eq_some_iff.mp shown
  have bound : r.number < Naming.source.limit := by
    have inside := r.numberLt
    generalize (if i.inserted then Naming.physical else n) = m at r inside
    have limits : m.limit ≤ Naming.source.limit := by cases m <;> decide
    omega
  exact ⟨⟨⟨r.number, bound⟩⟩, dif_pos bound, rfl⟩

theorem rereadShown (used : slot ∈ i.opcode.slots) (shown : i.shown n slot = some x) :
    ∃ r : SourceReg, i.rereadOperand n slot = {source := some r} ∧ r.number = x := by
  obtain ⟨r, named, number⟩ := shownSource shown
  exact ⟨r, by simp [rereadOperand, used, shown, named], number⟩

theorem rereadEchoes (shows : i.Shows n) (line : Nat) : i.Echoes n line (i.reread n line) where
  given := rfl
  line := rfl
  opcode := rfl
  constant carries := if_pos carries
  silent plain := if_neg (by simp [plain])
  registers slot used := by
    obtain ⟨x, shown⟩ := Option.isSome_iff_exists.mp (shows slot used)
    obtain ⟨r, same, number⟩ := rereadShown used shown
    exact ⟨r, (rereadSlot n line i slot).trans same, by rw [shown, number]⟩
  unused slot unused := (rereadSlot n line i slot).trans (if_neg unused)

theorem echoesShows (echoes : i.Echoes n line j) : i.Shows n := by
  intro slot used
  obtain ⟨r, -, shown⟩ := echoes.registers slot used
  simp [shown]

theorem echoesReread (echoes : i.Echoes n line j) : j = i.reread n line := by
  have slots : ∀ slot, j.operand slot = i.rereadOperand n slot := by
    intro slot
    by_cases used : slot ∈ i.opcode.slots
    · obtain ⟨r, same, shown⟩ := echoes.registers slot used
      rw [same, rereadOperand, if_pos used, shown, Option.bind_some, Reg.ofNatNumber]
    · rw [echoes.unused slot used, rereadOperand, if_neg used]
  have constant : j.constant = if i.opcode.hasConstant then i.constant else 0 := by
    cases carries : i.opcode.hasConstant with
    | true => exact echoes.constant carries
    | false => exact echoes.silent carries
  have first := slots .first
  have second := slots .second
  have third := slots .third
  have line := echoes.line
  have opcode := echoes.opcode
  have given := echoes.given
  cases j
  simp only [operand] at *
  simp only [reread, mk.injEq]
  exact ⟨line, opcode, constant, first, second, third, given⟩

theorem shownText (shown : i.shown n slot = some x) :
    ((i.operand slot).text (if i.inserted then .physical else n)).toList =
      'r' :: Nat.toDigits 10 x := by
  obtain ⟨r, found, rfl⟩ := Option.map_eq_some_iff.mp shown
  have spelled : (i.operand slot).text (if i.inserted then .physical else n) =
      "r" ++ toString r.number := by
    simp only [Operand.text, found]
    rfl
  rw [spelled, String.toList_append, Nat.toString_eq_repr, Nat.toList_repr]
  rfl

end Instr

namespace Source

section
variable {cs : List Char} {chunks : List Chunk} {op : Opcode} {i : Instr} {n : Naming} {x : Nat}

theorem cutsClean (cuts : Cuts cs chunks) : ∀ c ∈ cs, c ≠ '\n' ∧ c ≠ '/' := by
  induction cuts with
  | nil => simp
  | blank blank rest ih =>
    have apart : ∀ d, isBlank d = true → d ≠ '\n' ∧ d ≠ '/' := by
      intro d blank
      rcases isBlankIff.mp blank with same | same | same <;> subst same <;> decide
    exact List.forall_mem_cons.mpr ⟨apart _ (isBlankIff.mpr blank), ih⟩
  | comma rest ih => exact List.forall_mem_cons.mpr ⟨by decide, ih⟩
  | into rest ih =>
    exact List.forall_mem_cons.mpr ⟨by decide, List.forall_mem_cons.mpr ⟨by decide, ih⟩⟩
  | digits nonempty all longest rest ih =>
    refine List.forall_mem_append.mpr ⟨fun d inside => ?_, ih⟩
    obtain ⟨-, line, -, -, slash⟩ := runApart rfl (all d inside)
    exact ⟨line, slash⟩
  | word first all longest rest ih =>
    refine List.forall_mem_append.mpr ⟨List.forall_mem_cons.mpr ⟨?_, fun d inside => ?_⟩, ih⟩
    · obtain ⟨-, line, -, -, slash⟩ := runApart rfl first
      exact ⟨line, slash⟩
    · obtain ⟨-, line, -, -, slash⟩ := runApart rfl (all d inside)
      exact ⟨line, slash⟩

theorem cutsUncommented (cuts : Cuts cs chunks) : Cuts (beforeComment cs) chunks := by
  have whole : beforeComment (cs ++ []) = cs ++ [] :=
    beforeCommentRun fun d inside => (cutsClean cuts d inside).2
  rw [List.append_nil] at whole
  rw [whole]
  exact cuts

theorem stopsAt {p : Char → Bool} {c : Char} (apart : p c = false) :
    ∀ d ∈ (c :: cs).head?, p d = false := by
  intro d same
  rw [← Option.some.inj same]
  exact apart

theorem cutsSpace (rest : Cuts cs chunks) : Cuts (' ' :: cs) chunks := .blank (.inl rfl) rest

theorem cutsArrow (rest : Cuts cs chunks) : Cuts (" => ".toList ++ cs) (.into :: chunks) :=
  cutsSpace (.into (cutsSpace rest))

theorem cutsMnemonic (op : Opcode) (stop : ∀ d ∈ cs.head?, d.isAlphanum = false)
    (rest : Cuts cs chunks) : Cuts (op.mnemonic.toList ++ cs) (.word op.mnemonic.toList :: chunks) := by
  cases op <;> exact .word (by decide) (List.all_eq_true.mp rfl) stop rest

theorem cutsRegister (x : Nat) (stop : ∀ d ∈ cs.head?, d.isAlphanum = false) (rest : Cuts cs chunks) :
    Cuts ('r' :: Nat.toDigits 10 x ++ cs) (.word ('r' :: Nat.toDigits 10 x) :: chunks) := by
  refine .word (by decide) (fun d inside => ?_) stop rest
  have digit : d.isDigit = true := Nat.isDigit_of_mem_toDigits (by decide) (by decide) inside
  exact Bool.or_eq_true_iff.mpr (.inr digit)

theorem cutsConstant (x : Nat) (stop : ∀ d ∈ cs.head?, d.isDigit = false) (rest : Cuts cs chunks) :
    Cuts (Nat.toDigits 10 x ++ cs) (.digits (Nat.toDigits 10 x) :: chunks) :=
  .digits Nat.toDigits_ne_nil
    (fun _ inside => Nat.isDigit_of_mem_toDigits (by decide) (by decide) inside) stop rest

theorem cutsLast (x : Nat) :
    Cuts ('r' :: Nat.toDigits 10 x) [.word ('r' :: Nat.toDigits 10 x)] := by
  have whole := cutsRegister x (by simp) Cuts.nil
  rwa [List.append_nil] at whole

theorem numeralDigits (x : Nat) : numeral (Nat.toDigits 10 x) = x := by
  rw [← decimalNumeral]
  exact Nat.ofDigitChars_ten_toDigits

theorem registerMeans (r : SourceReg) :
    Chunk.Means (.word ('r' :: Nat.toDigits 10 r.number)) (.register r) :=
  .register Nat.toDigits_ne_nil
    (fun _ inside => Nat.isDigit_of_mem_toDigits (by decide) (by decide) inside)
    (numeralDigits r.number)

theorem constantMeans (c : Word) :
    Chunk.Means (.digits (Nat.toDigits 10 c.toNat)) (.constant c) :=
  .constant (numeralDigits c.toNat)

theorem constantText (c : Word) : (toString c).toList = Nat.toDigits 10 c.toNat := by
  have same : toString c = toString c.toNat := rfl
  rw [same, Nat.toString_eq_repr, Nat.toList_repr]

def Spelled (line : Nat) (cs : List Char) (i : Instr) : Prop :=
  ∃ chunks words, Cuts cs chunks ∧ List.Forall₂ Chunk.Means chunks words ∧ Phrase line words i

section
variable (line : Nat) (shows : i.Shows n)
include shows

theorem slotSpells (slot : Slot) (used : slot ∈ i.opcode.slots) :
    ∃ r : SourceReg, i.rereadOperand n slot = {source := some r} ∧
      ((i.operand slot).text (if i.inserted then .physical else n)).toList =
        'r' :: Nat.toDigits 10 r.number := by
  obtain ⟨x, shown⟩ := Option.isSome_iff_exists.mp (shows slot used)
  obtain ⟨r, same, rfl⟩ := Instr.rereadShown used shown
  exact ⟨r, same, Instr.shownText shown⟩

theorem loadISpells (operation : i.opcode = .loadI) :
    Spelled line (i.text n).toList (i.reread n line) := by
  obtain ⟨r, third, text⟩ := slotSpells shows .third (by rw [operation]; decide)
  have first : i.rereadOperand n .first = {} := if_neg (by rw [operation]; decide)
  have second : i.rereadOperand n .second = {} := if_neg (by rw [operation]; decide)
  have whole : i.text n = "loadI " ++ toString i.constant ++ " => " ++
      (i.operand .third).text (if i.inserted then .physical else n) := by
    unfold Instr.text
    rw [operation]
    rfl
  have cuts := cutsMnemonic .loadI (stopsAt (by decide)) (cutsSpace (cutsConstant i.constant.toNat
    (stopsAt (by decide)) (cutsArrow (cutsLast r.number))))
  refine ⟨_, [.op .loadI, .constant i.constant, .into, .register r], ?_,
    .cons (.opcode .loadI) (.cons (constantMeans _) (.cons .into (.cons (registerMeans r) .nil))), ?_⟩
  · rw [whole]
    simp only [String.toList_append, text, constantText, List.append_assoc]
    exact cuts
  · simp only [Instr.reread, operation, first, second, third]
    exact .loadI i.constant r

theorem movesSpells (operation : i.opcode = .load ∨ i.opcode = .store) :
    Spelled line (i.text n).toList (i.reread n line) := by
  obtain ⟨r, first, text⟩ := slotSpells shows .first (by
    rcases operation with same | same <;> rw [same] <;> decide)
  obtain ⟨q, third, text'⟩ := slotSpells shows .third (by
    rcases operation with same | same <;> rw [same] <;> decide)
  have second : i.rereadOperand n .second = {} := if_neg (by
    rcases operation with same | same <;> rw [same] <;> decide)
  have whole : i.text n = i.opcode.mnemonic ++ " " ++
      (i.operand .first).text (if i.inserted then .physical else n) ++ " => " ++
      (i.operand .third).text (if i.inserted then .physical else n) := by
    unfold Instr.text
    rcases operation with same | same <;> rw [same] <;> rfl
  have cuts := cutsMnemonic i.opcode (stopsAt (by decide)) (cutsSpace (cutsRegister r.number
    (stopsAt (by decide)) (cutsArrow (cutsLast q.number))))
  refine ⟨_, [.op i.opcode, .register r, .into, .register q], ?_,
    .cons (.opcode i.opcode) (.cons (registerMeans r) (.cons .into (.cons (registerMeans q) .nil))), ?_⟩
  · rw [whole]
    simp only [String.toList_append, text, text', List.append_assoc]
    exact cuts
  · simp only [Instr.reread, first, second, third]
    rcases operation with same | same <;> rw [same]
    · exact .load r q
    · exact .store r q

theorem arithSpells (operation : i.opcode ∈ [.add, .sub, .mult, .lshift, .rshift]) :
    Spelled line (i.text n).toList (i.reread n line) := by
  obtain ⟨slots, plain⟩ := Opcode.arithSlots i.opcode operation
  obtain ⟨r, first, text⟩ := slotSpells shows .first (by simp [slots])
  obtain ⟨q, second, text'⟩ := slotSpells shows .second (by simp [slots])
  obtain ⟨t, third, text''⟩ := slotSpells shows .third (by simp [slots])
  have whole : i.text n = i.opcode.mnemonic ++ " " ++
      (i.operand .first).text (if i.inserted then .physical else n) ++ ", " ++
      (i.operand .second).text (if i.inserted then .physical else n) ++ " => " ++
      (i.operand .third).text (if i.inserted then .physical else n) := by
    simp only [List.mem_cons, List.not_mem_nil, or_false] at operation
    unfold Instr.text
    rcases operation with same | same | same | same | same <;> rw [same] <;> rfl
  have cuts := cutsMnemonic i.opcode (stopsAt (by decide)) (cutsSpace (cutsRegister r.number
    (stopsAt (by decide)) (.comma (cutsSpace (cutsRegister q.number (stopsAt (by decide))
    (cutsArrow (cutsLast t.number)))))))
  refine ⟨_, [.op i.opcode, .register r, .comma, .register q, .into, .register t], ?_,
    .cons (.opcode i.opcode) (.cons (registerMeans r) (.cons .comma (.cons (registerMeans q)
      (.cons .into (.cons (registerMeans t) .nil))))), ?_⟩
  · rw [whole]
    simp only [String.toList_append, text, text', text'', List.append_assoc]
    exact cuts
  · simp only [Instr.reread, first, second, third, plain]
    exact .arith operation r q t

omit shows in
theorem outputSpells (operation : i.opcode = .output) :
    Spelled line (i.text n).toList (i.reread n line) := by
  have unused : ∀ slot, i.rereadOperand n slot = {} := fun slot => if_neg (by
    rw [operation]
    cases slot <;> decide)
  have whole : i.text n = "output " ++ toString i.constant := by
    unfold Instr.text
    rw [operation]
    rfl
  have cuts := cutsMnemonic .output (stopsAt (by decide)) (cutsSpace (cutsConstant i.constant.toNat
    (by simp) .nil))
  refine ⟨_, [.op .output, .constant i.constant], ?_,
    .cons (.opcode .output) (.cons (constantMeans _) .nil), ?_⟩
  · rw [List.append_nil] at cuts
    rw [whole]
    simp only [String.toList_append, constantText]
    exact cuts
  · simp only [Instr.reread, operation, unused]
    exact .output i.constant

omit shows in
theorem nopSpells (operation : i.opcode = .nop) :
    Spelled line (i.text n).toList (i.reread n line) := by
  have unused : ∀ slot, i.rereadOperand n slot = {} := fun slot => if_neg (by
    rw [operation]
    cases slot <;> decide)
  have whole : i.text n = Opcode.nop.mnemonic := by
    unfold Instr.text
    rw [operation]
    rfl
  have cuts := cutsMnemonic .nop (by simp) .nil
  refine ⟨_, [.op .nop], ?_, .cons (.opcode .nop) .nil, ?_⟩
  · rw [List.append_nil] at cuts
    rw [whole]
    exact cuts
  · simp only [Instr.reread, operation, unused]
    exact .nop

theorem textSpells : Spelled line (i.text n).toList (i.reread n line) := by
  cases operation : i.opcode with
  | loadI => exact loadISpells line shows operation
  | load => exact movesSpells line shows (.inl operation)
  | store => exact movesSpells line shows (.inr operation)
  | add | sub | mult | lshift | rshift => exact arithSpells line shows (by rw [operation]; decide)
  | output => exact outputSpells line operation
  | nop => exact nopSpells line operation

theorem textPlain : '\n' ∉ (i.text n).toList := by
  obtain ⟨chunks, words, cuts, -⟩ := textSpells 0 shows
  exact fun inside => (cutsClean cuts _ inside).1 rfl

theorem textJudged :
    (judgeLine line (i.text n).toList).diagnostics = [] ∧
      (judgeLine line (i.text n).toList).instr = some (i.reread n line) := by
  obtain ⟨chunks, words, cuts, means, phrase⟩ := textSpells line shows
  exact (judgeSays (textPlain shows)).mpr (.operation (cutsUncommented cuts) means phrase)

end

theorem linesText (is : List Instr) (shows : ∀ i ∈ is, i.Shows n) :
    (String.join (is.map fun i => i.text n ++ "\n")).toList.splitOn '\n' =
      is.map (fun i => (i.text n).toList) ++ [[]] := by
  rw [String.toList_join, List.flatMap_map]
  induction is with
  | nil => rfl
  | cons i is ih =>
    obtain ⟨first, later⟩ := List.forall_mem_cons.mp shows
    have line : (i.text n ++ "\n").toList = (i.text n).toList ++ ['\n'] := String.toList_append
    rw [List.flatMap_cons, line, List.append_assoc, List.singleton_append, splitLine (textPlain first),
      ih later, List.map_cons, List.cons_append]

theorem emptyJudged (line : Nat) : judgeLine line [] = ⟨none, []⟩ := by
  rw [judgeLine, lineWordsEnd rfl]
  rfl

theorem parseText (b : Block) (shows : ∀ i ∈ b.values, i.Shows n) :
    parse (b.text n) = .ok (.ofList (b.values.mapIdx fun p i => i.reread n (p + 1))) := by
  have lines : numberedLines (b.text n) =
      (b.values.zipIdx 1).map (Prod.map (fun i => (i.text n).toList) id) ++
        [([], 1 + b.values.length)] := by
    rw [numberedLines, Block.text, linesText b.values shows, List.zipIdx_append, List.zipIdx_map,
      List.length_map]
    rfl
  have judged : ∀ e ∈ b.values.zipIdx 1, (judgeLine e.2 (e.1.text n).toList).diagnostics = [] ∧
      (judgeLine e.2 (e.1.text n).toList).instr = some (e.1.reread n e.2) :=
    fun e inside => textJudged e.2 (shows e.1 (List.fst_mem_of_mem_zipIdx inside))
  have last := emptyJudged (1 + b.values.length)
  rw [parseLines, lines]
  constructor
  · intro l inside
    rcases List.mem_append.mp inside with printed | ending
    · obtain ⟨e, member, rfl⟩ := List.mem_map.mp printed
      exact (judged e member).1
    · rw [List.mem_singleton.mp ending, last]
  · have found : (b.values.zipIdx 1).filterMap (fun e => (judgeLine e.2 (e.1.text n).toList).instr) =
        b.values.mapIdx fun p i => i.reread n (p + 1) := by
      calc (b.values.zipIdx 1).filterMap _
          = (b.values.zipIdx 1).filterMap fun e => some (e.1.reread n e.2) :=
            List.filterMap_congr fun e inside => (judged e inside).2
        _ = (b.values.zipIdx 1).map fun e => e.1.reread n e.2 := by rw [List.filterMap_eq_map']
        _ = b.values.mapIdx fun p i => i.reread n (p + 1) := by
            refine List.ext_getElem? fun p => ?_
            rw [List.getElem?_map, List.getElem?_zipIdx, List.getElem?_mapIdx, Option.map_map,
              Nat.add_comm 1 p]
            rfl
    rw [List.filterMap_append, List.filterMap_map, List.filterMap_cons_none (by rw [last])]
    exact congrArg Chain.ofList ((List.append_nil _).trans found).symm

theorem phraseEchoes {line : Nat} {words : List Lexeme} (phrase : Phrase line words i) :
    i.Echoes .source line i := by
  cases phrase with
  | loadI c r =>
    refine ⟨rfl, rfl, rfl, fun _ => rfl, nofun, List.forall_mem_singleton.mpr ⟨r, rfl, rfl⟩, ?_⟩
    intro slot unused
    cases slot with
    | first | second => rfl
    | third => exact absurd List.mem_cons_self unused
  | load a r | store a r =>
    refine ⟨rfl, rfl, rfl, nofun, fun _ => rfl, List.forall_mem_cons.mpr
      ⟨⟨a, rfl, rfl⟩, List.forall_mem_singleton.mpr ⟨r, rfl, rfl⟩⟩, ?_⟩
    intro slot unused
    cases slot with
    | second => rfl
    | first => exact absurd List.mem_cons_self unused
    | third => exact absurd (List.mem_cons_of_mem _ List.mem_cons_self) unused
  | @arith op arith a b r =>
    obtain ⟨slots, plain⟩ := Opcode.arithSlots op arith
    refine ⟨rfl, rfl, rfl, fun carries => by simp [plain] at carries, fun _ => rfl, ?_, ?_⟩
    · intro slot _
      cases slot with
      | first => exact ⟨a, rfl, rfl⟩
      | second => exact ⟨b, rfl, rfl⟩
      | third => exact ⟨r, rfl, rfl⟩
    · intro slot unused
      cases slot <;> simp [slots] at unused
  | output c =>
    exact ⟨rfl, rfl, rfl, fun _ => rfl, nofun, nofun, fun slot _ => by cases slot <;> rfl⟩
  | nop =>
    exact ⟨rfl, rfl, rfl, nofun, fun _ => rfl, nofun, fun slot _ => by cases slot <;> rfl⟩

theorem parsedPhrases {text : String} {b : Block} (parsed : parse text = .ok b) :
    ∀ i ∈ b.values, ∃ line words, Phrase line words i := by
  obtain ⟨quiet, same⟩ := (parseLines text b).mp parsed
  intro i inside
  rw [same, Chain.ofListValues] at inside
  obtain ⟨l, listed, found⟩ := List.mem_filterMap.mp inside
  have plain : '\n' ∉ l.1 :=
    (linesPlain text.toList).2 l.1 (List.fst_mem_of_mem_zipIdx listed)
  have said := (judgeSays plain).mp ⟨quiet l listed, found⟩
  cases said with
  | operation cuts means phrase => exact ⟨l.2, _, phrase⟩

theorem parsedSource {text : String} {b : Block} (parsed : parse text = .ok b) :
    ∀ i ∈ b.values, i.Shows .source ∧ ∀ line, i.reread .source line = {i with line} := by
  intro i inside
  obtain ⟨line, words, phrase⟩ := parsedPhrases parsed i inside
  have echoes := phraseEchoes phrase
  exact ⟨Instr.echoesShows echoes, fun line' =>
    congrArg (fun j : Instr => {j with line := line'}) (Instr.echoesReread echoes).symm⟩

theorem textNumbered (b : Block) (sound : b.Sound) (short : b.size < 4294967294)
    (shows : ∀ i ∈ b.values, i.Shows n) : ∀ t ∈ tokens (b.text n), t.line < 4294967296 := by
  intro t inside
  have length := Chain.soundLength sound
  have bound := tokensNumbered (b.text n) t inside
  rw [Block.text, linesText b.values shows] at bound
  simp only [List.length_append, List.length_map, List.length_singleton] at bound
  omega

end

/-- A printed block is read back as its instructions, one a line, with the printed registers as source
registers. What was read before prints as a text that says the same and prints the same. -/
theorem textReadsBack :
    (∀ (b : Block) (n : Naming), b.Sound → b.size < 4294967294 → (∀ i ∈ b.values, i.Shows n) →
      (∀ t ∈ tokens (b.text n), t.line < 4294967296) ∧
        ∃ d, parse (b.text n) = .ok d ∧ d.size = b.size ∧
          ∀ p (i : Instr), b.values[p]? = some i →
            ∃ j, d.values[p]? = some j ∧ i.Echoes n (p + 1) j) ∧
      ∀ (text : String) (b : Block), parse text = .ok b →
        ∃ d, parse (b.text .source) = .ok d ∧
          d.values = b.values.mapIdx (fun p i => {i with line := p + 1}) ∧
          d.text .source = b.text .source := by
  constructor
  · intro b n sound short shows
    refine ⟨textNumbered b sound short shows, _, parseText b shows, ?_, fun p i found => ?_⟩
    · rw [← Chain.soundLength (Chain.ofListSound _), Chain.ofListValues]
      simp [Chain.soundLength sound]
    · rw [Chain.ofListValues, List.getElem?_mapIdx, found]
      exact ⟨_, rfl, Instr.rereadEchoes (shows i (List.mem_of_getElem? found)) (p + 1)⟩
  · intro text b parsed
    have source := parsedSource parsed
    have values : b.values.mapIdx (fun p i => i.reread .source (p + 1)) =
        b.values.mapIdx fun p i => {i with line := p + 1} := by
      refine List.ext_getElem? fun p => ?_
      rw [List.getElem?_mapIdx, List.getElem?_mapIdx]
      exact Option.map_congr fun i found => (source i (List.mem_of_getElem? found)).2 (p + 1)
    refine ⟨_, parseText b fun i inside => (source i inside).1, ?_, ?_⟩
    · rw [Chain.ofListValues, values]
    · rw [Block.text, Block.text, Chain.ofListValues, values]
      refine congrArg String.join (List.ext_getElem? fun p => ?_)
      rw [List.getElem?_map, List.getElem?_mapIdx, List.getElem?_map, Option.map_map]
      rfl

def restoredSum : Block :=
  let r := Reg.ofNat? .source
  .ofList [.loadI 7 4 (r 3), .insertedLoadI 9 4294967295 (Reg.ofNat? .physical 63),
    .ternary 9 .add (r 3) (r 4294967294) (r 3)]

theorem restoredSumReadsBack :
    (∃ d, parse (restoredSum.text .source) = .ok d ∧ d.size = 3 ∧
      ∃ j, d.values[1]? = some j ∧ j.inserted = false ∧ j.line = 2 ∧ j.constant = 4294967295 ∧
        (j.operand .third).source = Reg.ofNat? .source 63) ∧
      parse "nop//\n\n\tnop" = .ok (.ofList [.nop 1, .nop 3]) ∧
      ∃ d, parse (Block.text (.ofList [.nop 1, .nop 3]) .source) = .ok d ∧
        d.values = [.nop 1, .nop 2] := by
  have read : parse "nop//\n\n\tnop" = .ok (.ofList [.nop 1, .nop 3]) := by decide +kernel
  obtain ⟨-, d, parsed, size, echoes⟩ := textReadsBack.1 restoredSum .source (Chain.ofListSound _)
    (by decide +kernel) (by decide +kernel)
  obtain ⟨d', parsed', values, -⟩ := textReadsBack.2 _ _ read
  have second : restoredSum.values[1]? =
      some (.insertedLoadI 9 4294967295 (Reg.ofNat? .physical 63)) := by decide +kernel
  obtain ⟨j, found, echo⟩ := echoes 1 _ second
  obtain ⟨r, operand, shown⟩ := echo.registers .third (by decide)
  have number : r.number = 63 := (Option.some.inj shown).symm
  refine ⟨⟨d, parsed, size.trans (by decide +kernel), j, found, echo.given, echo.line,
    echo.constant rfl, ?_⟩, read, d', parsed', ?_⟩
  · rw [operand, ← number, Reg.ofNatNumber]
  · rw [values, Chain.ofListValues]
    rfl

end Source
end Straightline
