import NamelessLambda.Term.Parse

/-!
Contract: a rendering determines its term, up to the codes of sentinels.

Reading the characters of a term from the start of a group leaves the term in
that group, whatever follows, so the text of a term is read as that term. The
brackets in it are closed in the order in which they were opened, and the shape
of each pair is given by the number of pairs around it.

Owns:
- `Term.relabel` and `Term.uncoded`, which change codes of sentinels;
- what the reader does with the characters of a term;
- `Bracket.track`, which follows the open brackets through a text.
-/

namespace NamelessLambda

namespace Term

/-! ## Codes of sentinels -/

/-- The term with another code for each sentinel. -/
def relabel (code : Level → Level) : Term → Term
  | .var level => .var (if level.isSentinel then code level else level)
  | .lam body => .lam (body.relabel code)
  | .app function argument => .app (function.relabel code) (argument.relabel code)

/-- The term with the same code for every sentinel. -/
def uncoded (term : Term) : Term := term.relabel fun _ => -1

@[simp] theorem isVar_relabel (code : Level → Level) (term : Term) :
    (term.relabel code).isVar = term.isVar := by
  cases term <;> rfl

@[simp] theorem isLam_relabel (code : Level → Level) (term : Term) :
    (term.relabel code).isLam = term.isLam := by
  cases term <;> rfl

@[simp] theorem isApp_relabel (code : Level → Level) (term : Term) :
    (term.relabel code).isApp = term.isApp := by
  cases term <;> rfl

private theorem characters_relabel {code : Level → Level} {level : Level}
    (sentinel : level.isSentinel = true → (code level).isSentinel = true) :
    (if level.isSentinel then code level else level).characters = level.characters := by
  split
  case isTrue own => rw [Level.characters, Level.characters, if_pos (sentinel own), if_pos own]
  case isFalse => rfl

/-- All sentinels are written alike. -/
private theorem charactersOnto_relabel {code : Level → Level}
    (sentinels : ∀ level, level.isSentinel = true → (code level).isSentinel = true)
    (shape : Bracket) (term : Term) (rest : List Char) :
    charactersOnto shape (term.relabel code) rest = charactersOnto shape term rest := by
  induction term generalizing shape rest with
  | var level => simp only [relabel, charactersOnto, characters_relabel (sentinels level)]
  | lam body inductionHypothesis =>
      simp only [relabel, charactersOnto, isApp_relabel, inductionHypothesis]
  | app function argument functionHypothesis argumentHypothesis =>
      simp only [relabel, charactersOnto, isLam_relabel, isVar_relabel, functionHypothesis,
        argumentHypothesis]

theorem render_relabel {code : Level → Level}
    (sentinels : ∀ level, level.isSentinel = true → (code level).isSentinel = true) (term : Term) :
    (term.relabel code).render = term.render := by
  rw [render, render, charactersOnto_relabel sentinels]

private theorem render_uncoded (term : Term) : term.uncoded.render = term.render :=
  render_relabel (fun _ _ => by decide) term

end Term

/-! ## Reading a term -/

namespace Reader

/-- No number goes on at the start of `rest`. -/
def Terminated (rest : List Char) : Prop := ∀ character ∈ rest.head?, character.isDigit = false

private theorem terminated_cons {character : Char} (other : character.isDigit = false)
    (rest : List Char) : Terminated (character :: rest) := by
  intro first member
  cases member
  exact other

private theorem read_symbol {character : Char} (other : character.isDigit = false)
    (reader : Reader) : reader.read character = reader.endNumber.readSymbol character := by
  rw [read, if_neg (by rw [other]; exact Bool.false_ne_true)]

private theorem run_cons (reader : Reader) (character : Char) (rest : List Char) :
    reader.run (character :: rest) = (reader.read character).bind (·.run rest) := by
  rw [run, List.foldlM_cons]
  cases reader.read character <;> rfl

private theorem run_symbol {character : Char} (other : character.isDigit = false)
    (group : Group) (enclosing : List Group) (rest : List Char) :
    run ⟨group, enclosing, none⟩ (character :: rest) =
      (readSymbol ⟨group, enclosing, none⟩ character).bind (·.run rest) := by
  rw [run_cons, read_symbol other]
  rfl

private theorem endNumber_endNumber (reader : Reader) :
    reader.endNumber.endNumber = reader.endNumber := by
  obtain ⟨group, enclosing, number⟩ := reader
  cases number <;> rfl

/-- A number that cannot go on might as well have ended. -/
private theorem run_endNumber {rest : List Char} (terminated : Terminated rest) (reader : Reader) :
    reader.endNumber.run rest = reader.run rest := by
  cases rest with
  | nil =>
      show reader.endNumber.term? = reader.term?
      rw [term?, term?, endNumber_endNumber]
  | cons character rest =>
      have other : character.isDigit = false := terminated character rfl
      rw [run_cons, run_cons, read_symbol other, read_symbol other, endNumber_endNumber]

private theorem run_digits {digits : List Char} (all : ∀ digit ∈ digits, digit.isDigit = true)
    (group : Group) (enclosing : List Group) (number : Nat) (rest : List Char) :
    run ⟨group, enclosing, some number⟩ (digits ++ rest) =
      run ⟨group, enclosing, some (Nat.ofDigitChars 10 digits number)⟩ rest := by
  induction digits generalizing number with
  | nil => rfl
  | cons digit digits inductionHypothesis =>
      rw [List.cons_append, run_cons, read, all digit List.mem_cons_self]
      exact inductionHypothesis
        (fun other member => all other (List.mem_cons_of_mem digit member)) _

private theorem run_number (group : Group) (enclosing : List Group) (number : Nat)
    {rest : List Char} (terminated : Terminated rest) :
    run ⟨group, enclosing, none⟩ (Nat.toDigits 10 number ++ rest) =
      run ⟨group.append (.var (Int64.ofInt number)), enclosing, none⟩ rest := by
  have all : ∀ digit ∈ Nat.toDigits 10 number, digit.isDigit = true := fun digit member =>
    Nat.isDigit_of_mem_toDigits (by decide) (by decide) member
  obtain ⟨first, digits, written⟩ := List.exists_cons_of_ne_nil (Nat.toDigits_ne_nil (n := number))
  have value : Nat.ofDigitChars 10 digits (Nat.ofDigitChars 10 [first] 0) = number := by
    rw [← Nat.ofDigitChars_ten_toDigits (n := number), written]
    rfl
  rw [written] at all ⊢
  rw [List.cons_append, run_cons, read, all first List.mem_cons_self]
  show run ⟨group, enclosing, some (Nat.ofDigitChars 10 [first] 0)⟩ (digits ++ rest) = _
  rw [run_digits fun digit member => all digit (List.mem_cons_of_mem first member), value,
    ← run_endNumber terminated]
  rfl

/-- A variable becomes a part of the open group. -/
private theorem run_characters (group : Group) (enclosing : List Group) (level : Level)
    {rest : List Char} (terminated : Terminated rest) :
    run ⟨group, enclosing, none⟩ (level.characters ++ rest) =
      run ⟨group.append (Term.var level).uncoded, enclosing, none⟩ rest := by
  unfold Level.characters Term.uncoded Term.relabel
  by_cases sentinel : level.isSentinel = true
  · rw [if_pos sentinel, if_pos sentinel, List.singleton_append, run_symbol rfl]
    rfl
  · have natural : ((level.toInt.toNat : Nat) : Int) = level.toInt := by
      apply Int.toNat_of_nonneg
      rw [Level.isSentinel, decide_eq_true_iff, Int64.lt_iff_toInt_lt] at sentinel
      exact Int.not_lt.mp sentinel
    rw [if_neg sentinel, if_neg sentinel, run_number _ _ _ terminated, natural, Int64.ofInt_toInt]

/-- Group that holds a term and nothing else. -/
def Group.ofTerm (binders : Nat) : Term → Group
  | .lam body => ofTerm (binders + 1) body
  | part => ⟨binders, some part⟩

private theorem Group.term?_ofTerm (binders : Nat) (term : Term) :
    (Group.ofTerm binders term).term? = some (Term.lambda binders term) := by
  induction term generalizing binders with
  | lam body inductionHypothesis => exact inductionHypothesis (binders + 1)
  | var level => rfl
  | app function argument => rfl

private theorem Group.ofTerm_of_not_isLam {term : Term} (notLam : term.isLam = false)
    (binders : Nat) : Group.ofTerm binders term = ⟨binders, some term⟩ := by
  cases term with
  | lam body => cases notLam
  | var level => rfl
  | app function argument => rfl

/-- The reader takes a term from the start of its group, after any binders. -/
def Takes (term : Term) : Prop :=
  ∀ (shape : Bracket) (binders : Nat) (enclosing : List Group) (rest : List Char),
    Terminated rest →
      run ⟨⟨binders, none⟩, enclosing, none⟩ (term.charactersOnto shape rest) =
        run ⟨Group.ofTerm binders term.uncoded, enclosing, none⟩ rest

/-- A term in brackets becomes a part of the group around them. -/
private theorem Takes.bracketed {term : Term} (takes : Takes term) (shape inner : Bracket)
    (group : Group) (enclosing : List Group) (rest : List Char) :
    run ⟨group, enclosing, none⟩
        (shape.opening :: term.charactersOnto inner (shape.closing :: rest)) =
      run ⟨group.append term.uncoded, enclosing, none⟩ rest := by
  have opened : readSymbol ⟨group, enclosing, none⟩ shape.opening =
      some ⟨.empty, group :: enclosing, none⟩ := by
    cases shape <;> rfl
  have closes : shape.closing.isDigit = false := by
    cases shape <;> rfl
  have closed : readSymbol ⟨Group.ofTerm 0 term.uncoded, group :: enclosing, none⟩
      shape.closing = some ⟨group.append term.uncoded, enclosing, none⟩ := by
    cases shape <;> simp only [Bracket.closing, readSymbol, Group.term?_ofTerm] <;> rfl
  rw [run_symbol (by cases shape <;> rfl), opened]
  show run ⟨⟨0, none⟩, group :: enclosing, none⟩ _ = _
  rw [takes inner 0 _ _ (terminated_cons closes rest), run_symbol closes, closed]
  rfl

private theorem Takes.var (level : Level) : Takes (.var level) := by
  intro shape binders enclosing rest terminated
  exact run_characters ⟨binders, none⟩ enclosing level terminated

private theorem Takes.lam {body : Term} (takes : Takes body) : Takes (.lam body) := by
  intro shape binders enclosing rest terminated
  rw [Term.charactersOnto, run_symbol rfl]
  show run ⟨⟨binders + 1, none⟩, enclosing, none⟩ _ = _
  by_cases bracketed : body.isApp = true
  · have notLam : body.uncoded.isLam = false := by
      cases body with
      | app function argument => rfl
      | var level => cases bracketed
      | lam inner => cases bracketed
    rw [if_pos bracketed, takes.bracketed]
    show _ = run ⟨Group.ofTerm (binders + 1) body.uncoded, enclosing, none⟩ rest
    rw [Group.ofTerm_of_not_isLam notLam]
    rfl
  · rw [if_neg bracketed, takes shape (binders + 1) enclosing rest terminated]
    rfl

private theorem Takes.app {function argument : Term} (takesFunction : Takes function)
    (takesArgument : Takes argument) : Takes (.app function argument) := by
  intro shape binders enclosing rest terminated
  -- What remains once the function has been read, whether or not it stood in brackets.
  have remaining : ∀ rest', rest' = (if argument.isVar then argument.charactersOnto shape rest
      else shape.opening :: argument.charactersOnto shape.inner (shape.closing :: rest)) →
      run ⟨⟨binders, some function.uncoded⟩, enclosing, none⟩ ('.' :: rest') =
        run ⟨⟨binders, some (.app function.uncoded argument.uncoded)⟩, enclosing, none⟩ rest := by
    rintro _ rfl
    rw [run_symbol rfl]
    show run ⟨⟨binders, some function.uncoded⟩, enclosing, none⟩ _ = _
    cases argument with
    | var level => exact run_characters _ enclosing level terminated
    | lam body => exact takesArgument.bracketed shape shape.inner _ enclosing rest
    | app inner last => exact takesArgument.bracketed shape shape.inner _ enclosing rest
  show run _ (Term.charactersOnto shape (.app function argument) rest) =
    run ⟨⟨binders, some (.app function.uncoded argument.uncoded)⟩, enclosing, none⟩ rest
  rw [Term.charactersOnto]
  by_cases bracketed : function.isLam = true
  · rw [if_pos bracketed, takesFunction.bracketed]
    exact remaining _ rfl
  · have notLam : function.uncoded.isLam = false := by
      rw [Term.uncoded, Term.isLam_relabel]
      exact Bool.eq_false_iff.mpr bracketed
    rw [if_neg bracketed, takesFunction shape binders enclosing _ (terminated_cons rfl _),
      Group.ofTerm_of_not_isLam notLam]
    exact remaining _ rfl

theorem takes (term : Term) : Takes term := by
  induction term with
  | var level => exact .var level
  | lam body inductionHypothesis => exact .lam inductionHypothesis
  | app function argument functionHypothesis argumentHypothesis =>
      exact .app functionHypothesis argumentHypothesis

private theorem run_start_characters (term : Term) :
    start.run (term.charactersOnto .round []) = some term.uncoded := by
  have ended : Terminated [] := by
    intro character member
    cases member
  show run ⟨⟨0, none⟩, [], none⟩ _ = _
  rw [takes term .round 0 [] [] ended]
  exact Group.term?_ofTerm 0 term.uncoded

end Reader

/-! ## The text as a whole -/

namespace Term

theorem parse?_render (term : Term) : parse? term.render = some term.uncoded := by
  rw [parse?, render, String.toList_ofList, Reader.run_start_characters]
  apply Option.filter_eq_some_iff.mpr
  exact ⟨rfl, beq_iff_eq.mpr term.render_uncoded⟩

theorem render_of_parse? {text : String} {term : Term} (accepted : parse? text = some term) :
    term.render = text :=
  beq_iff_eq.mp (Option.filter_eq_some_iff.mp accepted).2

theorem render_eq_iff {term other : Term} :
    term.render = other.render ↔ term.uncoded = other.uncoded := by
  constructor
  · intro same
    have accepted := term.parse?_render
    rw [same, other.parse?_render] at accepted
    exact (Option.some.inj accepted).symm
  · intro same
    rw [← term.render_uncoded, same, other.render_uncoded]

end Term

/-! ## Brackets -/

namespace Bracket

/-- Shape of a pair of brackets with the given number of pairs around it. -/
def atDepth (around : Nat) : Bracket := if around % 2 = 0 then .round else .square

private theorem atDepth_succ (around : Nat) : atDepth (around + 1) = (atDepth around).inner := by
  unfold atDepth
  rcases Nat.mod_two_eq_zero_or_one around with even | odd
  · rw [if_neg (by omega), if_pos even]
    rfl
  · rw [if_pos (by omega), if_neg (by omega)]
    rfl

/-- Brackets that are open after one more character, the innermost first. A bracket can only be
closed by one of its own shape. -/
def track (opened : List Bracket) : Char → Option (List Bracket)
  | '(' => some (.round :: opened)
  | '[' => some (.square :: opened)
  | ')' => if opened.head? = some .round then some opened.tail else none
  | ']' => if opened.head? = some .square then some opened.tail else none
  | _ => some opened

private theorem track_opening (opened : List Bracket) (shape : Bracket) :
    track opened shape.opening = some (shape :: opened) := by
  cases shape <;> rfl

private theorem track_closing (opened : List Bracket) (shape : Bracket) :
    track (shape :: opened) shape.closing = some opened := by
  cases shape <;> rfl

/-- Character that neither opens nor closes a pair. -/
def IsPlain (character : Char) : Prop :=
  ∀ shape : Bracket, character ≠ shape.opening ∧ character ≠ shape.closing

private theorem track_of_isPlain {character : Char} (plain : IsPlain character)
    (opened : List Bracket) : track opened character = some opened := by
  unfold track
  split
  · exact absurd rfl (plain .round).1
  · exact absurd rfl (plain .square).1
  · exact absurd rfl (plain .round).2
  · exact absurd rfl (plain .square).2
  · rfl

private theorem isPlain_of_isDigit {character : Char} (digit : character.isDigit = true) :
    IsPlain character := by
  intro shape
  constructor
  · rintro rfl
    cases shape <;> cases digit
  · rintro rfl
    cases shape <;> cases digit

/-- Text that closes the brackets in `opened` and all of its own. Each of its own pairs has the
shape that belongs to the number of pairs around it. -/
inductive Nested : (opened : List Bracket) → (text : List Char) → Prop where
  | done : Nested [] []
  | plain {opened : List Bracket} {character : Char} {rest : List Char}
      (other : IsPlain character) : Nested opened rest → Nested opened (character :: rest)
  | opening {opened : List Bracket} {rest : List Char} :
      Nested (atDepth opened.length :: opened) rest →
        Nested opened ((atDepth opened.length).opening :: rest)
  | closing {opened : List Bracket} {rest : List Char} (shape : Bracket) :
      Nested opened rest → Nested (shape :: opened) (shape.closing :: rest)

private theorem Nested.append_plain {opened : List Bracket} {text rest : List Char}
    (plain : ∀ character ∈ text, IsPlain character) (nested : Nested opened rest) :
    Nested opened (text ++ rest) := by
  induction text with
  | nil => exact nested
  | cons character text inductionHypothesis =>
      apply Nested.plain (plain character List.mem_cons_self)
      exact inductionHypothesis
        fun other member => plain other (List.mem_cons_of_mem character member)

private theorem isPlain_of_mem_characters {level : Level} {character : Char}
    (member : character ∈ level.characters) : IsPlain character := by
  unfold Level.characters at member
  split at member
  · rw [List.mem_singleton.mp member]
    intro shape
    cases shape <;> decide
  · exact isPlain_of_isDigit (Nat.isDigit_of_mem_toDigits (by decide) (by decide) member)

/-- The characters of the term close every bracket that they open. -/
def Balances (term : Term) : Prop :=
  ∀ (opened : List Bracket) (rest : List Char),
    Nested opened rest → Nested opened (term.charactersOnto (atDepth opened.length) rest)

private theorem Balances.bracketed {term : Term} (balances : Balances term) {opened : List Bracket}
    {rest : List Char} (nested : Nested opened rest) :
    Nested opened ((atDepth opened.length).opening :: term.charactersOnto
      (atDepth opened.length).inner ((atDepth opened.length).closing :: rest)) := by
  apply Nested.opening
  rw [← atDepth_succ]
  exact balances _ _ (nested.closing _)

private theorem isPlain_binder : IsPlain '♥' := by
  intro shape
  cases shape <;> decide

private theorem isPlain_point : IsPlain '.' := by
  intro shape
  cases shape <;> decide

private theorem balances (term : Term) : Balances term := by
  induction term with
  | var level =>
      intro opened rest nested
      exact nested.append_plain fun _ member => isPlain_of_mem_characters member
  | lam body inductionHypothesis =>
      intro opened rest nested
      rw [Term.charactersOnto]
      apply Nested.plain isPlain_binder
      split
      · exact inductionHypothesis.bracketed nested
      · exact inductionHypothesis opened rest nested
  | app function argument functionHypothesis argumentHypothesis =>
      intro opened rest nested
      have afterFunction : Nested opened ('.' ::
          if argument.isVar then argument.charactersOnto (atDepth opened.length) rest
          else (atDepth opened.length).opening :: argument.charactersOnto
            (atDepth opened.length).inner ((atDepth opened.length).closing :: rest)) := by
        apply Nested.plain isPlain_point
        split
        · exact argumentHypothesis opened rest nested
        · exact argumentHypothesis.bracketed nested
      simp only [Term.charactersOnto]
      split
      · exact functionHypothesis.bracketed afterFunction
      · exact functionHypothesis opened _ afterFunction

theorem nested_render (term : Term) : Nested [] term.render.toList := by
  rw [Term.render, String.toList_ofList]
  exact balances term [] [] .done

/-- Nested brackets are balanced, and each closing one has the shape of the one it closes. -/
private theorem Nested.foldlM_track {opened : List Bracket} {text : List Char}
    (nested : Nested opened text) : text.foldlM track opened = some [] := by
  induction nested with
  | done => rfl
  | plain other _ inductionHypothesis =>
      rw [List.foldlM_cons, track_of_isPlain other]
      exact inductionHypothesis
  | opening _ inductionHypothesis =>
      rw [List.foldlM_cons, track_opening]
      exact inductionHypothesis
  | closing shape _ inductionHypothesis =>
      rw [List.foldlM_cons, track_closing]
      exact inductionHypothesis

private theorem opening_ne_closing (shape other : Bracket) : shape.opening ≠ other.closing := by
  cases shape <;> cases other <;> decide

private theorem opening_injective {shape other : Bracket} (same : shape.opening = other.opening) :
    shape = other := by
  cases shape <;> cases other <;> first | rfl | cases same

/-- The brackets that are still open before a pair decide the shape of the pair. -/
def Alternates (opened : List Bracket) (text : List Char) : Prop :=
  ∀ before shape after, text = before ++ opening shape :: after →
    ∃ around, before.foldlM track opened = some around ∧ shape = atDepth around.length

private theorem Alternates.cons {opened around : List Bracket} {character : Char} {rest : List Char}
    (tracked : track opened character = some around)
    (shaped : ∀ shape : Bracket, character = shape.opening → shape = atDepth opened.length)
    (alternates : Alternates around rest) : Alternates opened (character :: rest) := by
  intro before shape after found
  cases before with
  | nil => exact ⟨opened, rfl, shaped shape (List.cons.inj found).1⟩
  | cons first before =>
      obtain ⟨rfl, foundRest⟩ := List.cons.inj found
      rw [List.foldlM_cons, tracked]
      exact alternates before shape after foundRest

private theorem Nested.alternates {opened : List Bracket} {text : List Char}
    (nested : Nested opened text) : Alternates opened text := by
  induction nested with
  | done =>
      intro before shape after found
      cases before <;> cases found
  | plain other _ inductionHypothesis =>
      exact inductionHypothesis.cons (track_of_isPlain other _)
        fun shape same => absurd same (other shape).1
  | opening _ inductionHypothesis =>
      exact inductionHypothesis.cons (track_opening _ _)
        fun shape same => opening_injective same.symm
  | closing own _ inductionHypothesis =>
      exact inductionHypothesis.cons (track_closing _ _)
        fun shape same => absurd same.symm (opening_ne_closing shape own)

end Bracket

/-- Two terms are written alike exactly if they only differ in the codes of sentinels. A rendering
is read back as the term it was written for, less those codes, and no other text is read. Its
brackets are balanced, and a pair inside `n` others is round for even `n` and square for odd `n`. -/
theorem rendering_unambiguous (term : Term) :
    (∀ other : Term, term.render = other.render ↔ term.uncoded = other.uncoded) ∧
    Term.parse? term.render = some term.uncoded ∧
    (∀ text, Term.parse? text = some term → term.render = text) ∧
    term.render.toList.foldlM Bracket.track [] = some [] ∧
    (∀ before shape after, term.render.toList = before ++ Bracket.opening shape :: after →
      ∃ around, before.foldlM Bracket.track [] = some around ∧
        shape = Bracket.atDepth around.length) :=
  ⟨fun _ => Term.render_eq_iff, term.parse?_render, fun _ => Term.render_of_parse?,
    (Bracket.nested_render term).foldlM_track, (Bracket.nested_render term).alternates⟩

/-- The code of the sentinel is lost, the number `10` is not, and the group `(0.∞)` inside two other
pairs is round again. -/
theorem doubling_text_read :
    Term.parse? "♥([♥(0.∞)].[10.0])" =
      some (.lam (.app (.lam (.app 0 (.var (-1)))) (.app 10 0))) ∧
    (Term.lam (.app (.lam (.app 0 (.var (-1)))) (.app 10 0))).render = "♥([♥(0.∞)].[10.0])" ∧
    (∃ around, "♥([♥".toList.foldlM Bracket.track [] = some around ∧
      Bracket.round = Bracket.atDepth around.length) := by
  have coded := rendering_unambiguous (.lam (.app (.lam (.app 0 (.var (-4)))) (.app 10 0)))
  have written : (Term.lam (.app (.lam (.app 0 (.var (-4)))) (.app 10 0))).render =
      "♥([♥(0.∞)].[10.0])" := by decide
  rw [written] at coded
  have read := coded.2.1
  exact ⟨read, (rendering_unambiguous _).2.2.1 _ read,
    coded.2.2.2.2 "♥([♥".toList .round "0.∞)].[10.0])".toList (by decide)⟩

end NamelessLambda
