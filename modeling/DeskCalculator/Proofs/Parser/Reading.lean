import DeskCalculator.Proofs.Grammar.Reading
import DeskCalculator.Proofs.Parser

namespace DeskCalculator

namespace Expr

theorem Reading.negated_refused (r : Reading) {t : Token} (h : ∀ x, t ≠ .number x) :
    r.negated t = .error (.numberExpected t.text) := by
  cases t with
  | number x => exact absurd rfl (h x)
  | nothing | parenOpen | parenClose | operator _ | factorial | function _ => rfl

theorem Reading.operand_refused (r : Reading) {t : Token} (hsign : t ≠ .operator .sub)
    (hnumber : ∀ x, t ≠ .number x) (hopen : t ≠ .parenOpen) (hname : ∀ name, t ≠ .function name) :
    r.operand t = .error (.unexpectedToken t.text) := by
  cases t with
  | number x => exact absurd rfl (hnumber x)
  | parenOpen => exact absurd rfl hopen
  | function name => exact absurd rfl (hname name)
  | operator op =>
    cases op with
    | sub => exact absurd rfl hsign
    | add | mul | div | mod => rfl
  | nothing | parenClose | factorial => rfl

theorem Reading.after_refused (r : Reading) {e : Expr} {bare : Bool} {t : Token}
    (hop : ∀ op, t ≠ .operator op) (hmark : t = .factorial → bare = false)
    (hclose : t = .parenClose → r.groups = []) : r.after e bare t = .error (r.refuse t) := by
  cases t with
  | operator op => exact absurd rfl (hop op)
  | factorial =>
    rw [hmark rfl]
    rfl
  | parenClose =>
    unfold Reading.after
    rw [hclose rfl]
  | nothing | number _ | parenOpen | function _ => rfl

end Expr

namespace Parser

open DeskCalculator.Expr (Opening Pending Reading)

/-- The parser has read the tokens that the reading has. -/
def Abreast (tokens : List Token) (parser : Parser) (reading : Reading) : Prop :=
  ∃ read, tokens = read ++ parser.tokens.rest ∧ parser.tokens.last = read.getLast? ∧
    Reading.run {} read = .ok reading

/-- The reading is refused for this. -/
abbrev Refuses (tokens : List Token) (fault : Fault) : Prop := Expr.ofTokens tokens = .error fault

variable {tokens : List Token} {parser before inside ready after : Parser} {token : Token}
  {fault : Fault} {r r' : Reading} {outer p : Pending} {gs : List (Opening × Pending)}
  {e whole : Expr} {bare : Bool}

namespace Abreast

theorem next (h : Abreast tokens parser r) (hn : parser.next = (some token, ready))
    (hs : r.step token = .ok r') : Abreast tokens ready r' := by
  obtain ⟨read, hread, _, hrun⟩ := h
  obtain ⟨hrest, hlast, _⟩ := next_rest hn
  refine ⟨read ++ [token], ?_, ?_, ?_⟩
  · rw [hread, hrest, List.append_assoc]
    rfl
  · rw [hlast, List.getLast?_concat]
  · refine Reading.run_append_ok hrun ?_
    rw [Reading.run_cons, hs]
    rfl

theorem refused (h : Abreast tokens parser r) (hn : parser.next = (some token, ready))
    (hs : r.step token = .error fault) : Refuses tokens fault := by
  obtain ⟨read, hread, _, hrun⟩ := h
  obtain ⟨hrest, _, _⟩ := next_rest hn
  change Reading.run {} tokens >>= _ = _
  rw [hread, hrest, Reading.run_append, hrun, Outcome.ok_bind, Reading.run_cons, hs]
  rfl

/-- Where all tokens are read, the reading ends. -/
theorem ended (h : Abreast tokens parser r) (hend : parser.tokens.rest = []) :
    parser.tokens.last = tokens.getLast? ∧
      Expr.ofTokens tokens = r.finish (tokens.getLast?.getD .nothing) := by
  obtain ⟨read, hread, hlast, hrun⟩ := h
  rw [hend, List.append_nil] at hread
  subst hread
  refine ⟨hlast, ?_⟩
  change Reading.run {} tokens >>= _ = _
  rw [hrun, Outcome.ok_bind]

theorem missing (h : Abreast tokens parser r) (hn : parser.next = (none, after))
    (hne : tokens ≠ []) (hs : ∀ e bare, r.stage ≠ .factor e bare) :
    Refuses tokens after.missingOperand := by
  obtain ⟨hend, rfl⟩ := next_end hn
  obtain ⟨hlast, hfinish⟩ := h.ended hend
  rw [List.getLast?_eq_some_getLast hne] at hlast hfinish
  rw [Refuses, hfinish, missingOperand, hlast]
  obtain ⟨stage, p, gs⟩ := r
  cases stage with
  | operand | negated => rfl
  | factor e bare => exact absurd rfl (hs e bare)

end Abreast

theorem peek_of_next (h : parser.next = (some token, ready)) :
    parser.tokens.peek = some token := by
  rw [Cursor.peek, (next_rest h).1, List.head?_cons]

/-- No factorial follows a bare factor here, and no operator that would have been taken. -/
structure Stops (taken : Operator → Bool) (bare : Bool) (parser : Parser) : Prop where
  factorial : bare = true → parser.tokens.peek ≠ some .factorial
  operator : ∀ op, parser.tokens.peek = some (.operator op) → taken op = false

/-- The reading is behind a factor of the same groups, the last one of a phrase `whole`, and the
tree of the phrase was added to the row. What waits before the factor makes it `whole`. -/
def Arrives (tokens : List Token) (gs : List (Opening × Pending)) (taken : Operator → Bool)
    (makes : Pending → Expr → Expr → Prop) (arena : Arena) (result : Nat × Parser) : Prop :=
  ∃ e bare p whole, Abreast tokens result.2 ⟨.factor e bare, p, gs⟩ ∧ Stops taken bare result.2 ∧
    makes p e whole ∧ whole.layOut arena = (result.2.arena, result.1)

/-- Where an operand is awaited the rule reads a phrase, of less than `bound` tokens, as the reading
does. -/
def Reads (tokens : List Token) (bound : Nat) (taken : Operator → Bool)
    (makes : Pending → Pending → Expr → Expr → Prop) (rule : Rule) : Prop :=
  ∀ ⦃before outer gs⦄, Abreast tokens before ⟨.operand, outer, gs⟩ →
    before.tokens.rest.length < bound →
    Outcome.Yields (Refuses tokens) (Arrives tokens gs taken (makes outer) before.arena)
      (rule before)

/-- A factor leaves what waits as it was. -/
def MakesFactor (outer p : Pending) (e whole : Expr) : Prop := p = outer ∧ e = whole

/-- A term is what waits since it began, with the factor that ends it. -/
def MakesTerm (outer p : Pending) (e whole : Expr) : Prop :=
  outer.product = none → p.sum = outer.sum ∧ p.term e = whole

def MakesExpression (outer p : Pending) (e whole : Expr) : Prop :=
  outer = {} → p.expression e = whole

variable {expression operand : Rule} {joins taken : Operator → Bool} {bound depth index : Nat}
  {makes makes' : Pending → Pending → Expr → Expr → Prop}

/-- Behind an expression nothing can follow but the end of its group. -/
theorem Abreast.refused_behind (h : Abreast tokens parser ⟨.factor e bare, p, gs⟩)
    (hs : Stops (fun _ => true) bare parser) (hn : parser.next = (some token, ready))
    (hclose : token = .parenClose → gs = []) :
    Refuses tokens (Reading.refuse ⟨.factor e bare, p, gs⟩ token) := by
  have hpeek := peek_of_next hn
  refine h.refused hn (Reading.after_refused _ ?_ ?_ hclose)
  · rintro op rfl
    exact Bool.noConfusion (hs.operator op hpeek)
  · rintro rfl
    exact Bool.eq_false_iff.mpr fun hb => hs.factorial hb hpeek

theorem close_reads {opening : Opening}
    (h : Abreast tokens inside ⟨.factor e bare, p, (opening, outer) :: gs⟩)
    (hs : Stops (fun _ => true) bare inside) :
    Outcome.Yields (Refuses tokens)
      (fun after => Abreast tokens after
          ⟨.factor (opening.wrap (p.expression e)) true, outer, gs⟩ ∧ after.arena = inside.arena)
      (inside.close opening.token) := by
  unfold close
  split
  · rename_i hnext
    exact (h.ended (next_end hnext).1).2
  · rename_i hnext
    exact ⟨h.next hnext rfl, (next_rest hnext).2.2⟩
  · rename_i token _ hclose hnext
    exact h.refused_behind hs hnext fun ht => absurd ht hclose

theorem Abreast.enter {opening : Opening} (h : Abreast tokens before ⟨.operand, outer, gs⟩)
    (hopen : before.next = (some opening.token, ready)) :
    Abreast tokens ready ⟨.operand, {}, (opening, outer) :: gs⟩ := by
  refine h.next hopen ?_
  cases opening with
  | parenthesis | function name => rfl

/-- A group is read up to its end, and the rule goes on with `rest` from there. -/
theorem group_reads (opening : Opening) (rest : Nat → Rule) {arrives : Nat × Parser → Prop}
    (h : Reads tokens depth (fun _ => true) MakesExpression expression)
    (ha : Abreast tokens before ⟨.operand, outer, gs⟩) (hb : before.tokens.rest.length ≤ depth)
    (hopen : before.next = (some opening.token, ready))
    (hrest : ∀ {index after e}, Abreast tokens after ⟨.factor (opening.wrap e) true, outer, gs⟩ →
      e.layOut before.arena = (after.arena, index) →
      Outcome.Yields (Refuses tokens) arrives (rest index after)) :
    Outcome.Yields (Refuses tokens) arrives (do
      let (index, inside) ← expression ready
      let after ← inside.close opening.token
      rest index after) := by
  obtain ⟨hread, _, harena⟩ := next_rest hopen
  rw [hread, List.length_cons] at hb
  refine (h (ha.enter hopen) hb).bind ?_
  rintro ⟨index, inside⟩ ⟨e, bare, p, whole, hinside, hs, hwhole, hl⟩
  refine (close_reads hinside hs).bind ?_
  rintro after ⟨hafter, hsame⟩
  refine hrest hafter ?_
  rw [hwhole rfl, ← harena, hl, ← hsame]

/-- A subfactor is always bare. -/
theorem subfactor_reads (hne : tokens ≠ [])
    (h : Reads tokens depth (fun _ => true) MakesExpression expression)
    (ha : Abreast tokens before ⟨.operand, outer, gs⟩) (hb : before.tokens.rest.length ≤ depth) :
    Outcome.Yields (Refuses tokens)
      (fun result => ∃ e, Abreast tokens result.2 ⟨.factor e true, outer, gs⟩ ∧
        e.layOut before.arena = (result.2.arena, result.1))
      (subfactor expression before) := by
  unfold subfactor
  split
  · rename_i hnext
    exact ha.missing hnext hne (fun _ _ => Expr.Stage.noConfusion)
  · rename_i ready hsign
    have hready : Abreast tokens ready ⟨.negated, outer, gs⟩ := ha.next hsign rfl
    unfold negated
    split
    · rename_i hnext
      exact hready.missing hnext hne (fun _ _ => Expr.Stage.noConfusion)
    · rename_i x after hnext
      have hafter : Abreast tokens after ⟨.factor (.number x.negate) true, outer, gs⟩ :=
        hready.next hnext rfl
      refine ⟨.number x.negate, hafter, ?_⟩
      rw [← (next_rest hsign).2.2, ← (next_rest hnext).2.2]
      rfl
    · rename_i token _ hnumber hnext
      exact hready.refused hnext (Reading.negated_refused _ hnumber)
  · rename_i x ready hnext
    have hready : Abreast tokens ready ⟨.factor (.number x) true, outer, gs⟩ :=
      ha.next hnext rfl
    refine ⟨.number x, hready, ?_⟩
    rw [← (next_rest hnext).2.2]
    rfl
  · rename_i ready hopen
    refine group_reads .parenthesis (fun index after => .ok (index, after)) h ha hb hopen ?_
    intro index after e hafter hl
    exact ⟨e, hafter, hl⟩
  · rename_i name ready hopen
    refine group_reads (.function name)
      (fun index after => .ok (after.push (.unary (.function name) index))) h ha hb hopen ?_
    intro index after e hafter hl
    refine ⟨.call name e, hafter, ?_⟩
    rw [Expr.layOut, hl]
    rfl
  · rename_i token _ hsign hnumber hopen hname hnext
    exact ha.refused hnext (Reading.operand_refused _ hsign hnumber hopen hname)

theorem factor_reads (hne : tokens ≠ [])
    (h : Reads tokens depth (fun _ => true) MakesExpression expression) :
    Reads tokens (depth + 1) (fun _ => false) MakesFactor (factor expression) := by
  intro before outer gs ha hb
  refine (subfactor_reads hne h ha (Nat.le_of_lt_succ hb)).bind ?_
  rintro ⟨operand, inside⟩ ⟨e, hinside, hl⟩
  simp only
  split
  · rename_i hpeek
    have hnext := next_of_peek hpeek
    have hready : Abreast tokens inside.next.2 ⟨.factor (.factorial e) false, outer, gs⟩ :=
      hinside.next hnext rfl
    refine ⟨.factorial e, false, outer, .factorial e, hready, ⟨Bool.noConfusion, fun _ _ => rfl⟩,
      ⟨rfl, rfl⟩, ?_⟩
    rw [Expr.layOut, hl, ← (next_rest hnext).2.2]
    rfl
  · rename_i hpeek
    exact ⟨e, true, outer, e, hinside, ⟨fun _ => hpeek, fun _ _ => rfl⟩, ⟨rfl, rfl⟩, hl⟩

theorem Arrives.stopped {arena : Arena} {makes : Pending → Expr → Expr → Prop}
    {result : Nat × Parser} (h : Arrives tokens gs taken makes arena result)
    (hs : ∀ op, result.2.tokens.peek = some (.operator op) → joins op = false) :
    Arrives tokens gs (fun op => taken op || joins op) makes arena result := by
  obtain ⟨e, bare, p, whole, ha, hstops, hm, hl⟩ := h
  refine ⟨e, bare, p, whole, ha, ⟨hstops.factorial, ?_⟩, hm, hl⟩
  intro op hop
  rw [hstops.operator op hop, hs op hop]
  rfl

/-- The phrase so far becomes the left operand of an operator that `joins` has. -/
theorem round_reads (h : Reads tokens bound taken makes operand) {start : Arena} {op : Operator}
    {left : Nat}
    (hjoin : ∀ {p p' e e' first second}, makes' outer p e first →
      makes (p.push e op) p' e' second → makes' outer p' e' (.binary op first second))
    (hl : Arrives tokens gs taken (makes' outer) start (left, inside))
    (hn : inside.next = (some (.operator op), ready)) (hb : ready.tokens.rest.length < bound) :
    Outcome.Yields (Refuses tokens)
      (fun result => Arrives tokens gs taken (makes' outer) start
        (result.2.push (.dual (.operator op) left result.1)))
      (operand ready) := by
  obtain ⟨e, bare, p, first, ha, -, hm, hl⟩ := hl
  have hready : Abreast tokens ready ⟨.operand, p.push e op, gs⟩ := ha.next hn rfl
  have hright := h hready hb
  cases hresult : operand ready with
  | error fault => exact hright.of_error hresult
  | ok result =>
    obtain ⟨right, after⟩ := result
    obtain ⟨e', bare', p', second, ha', hs', hm', hl'⟩ := hright.of_ok hresult
    refine ⟨e', bare', p', .binary op first second, ha', ⟨hs'.factorial, hs'.operator⟩,
      hjoin hm hm', ?_⟩
    -- the second phrase was laid out in the row that the first one left
    rw [(next_rest hn).2.2] at hl'
    rw [Expr.layOut, hl]
    simp only [hl']
    rfl

/-- There are rounds enough, as each of them reads its operator. -/
theorem chain_reads (h : Reads tokens bound taken makes operand) (hlaid : LaysOut operand)
    {start : Arena}
    (hjoin : ∀ {p p' e e' first second op}, joins op = true → makes' outer p e first →
      makes (p.push e op) p' e' second → makes' outer p' e' (.binary op first second))
    {rounds left : Nat} (hr : inside.tokens.rest.length ≤ rounds)
    (hb : inside.tokens.rest.length < bound)
    (hl : Arrives tokens gs taken (makes' outer) start (left, inside)) :
    Outcome.Yields (Refuses tokens)
      (Arrives tokens gs (fun op => taken op || joins op) (makes' outer) start)
      (chain operand joins rounds left inside) := by
  induction rounds generalizing left inside with
  | zero =>
    have hpeek : inside.tokens.peek = none := by
      rw [Cursor.peek, List.length_eq_zero_iff.mp (Nat.le_zero.mp hr), List.head?_nil]
    refine hl.stopped ?_
    intro op hop
    rw [hpeek] at hop
    cases hop
  | succ rounds ih =>
    unfold chain
    split
    · rename_i op hpeek
      split
      · rename_i hj
        have hnext := next_of_peek hpeek
        rw [(next_rest hnext).1, List.length_cons] at hr hb
        have hround := round_reads h (hjoin hj) hl hnext (Nat.lt_of_succ_lt hb)
        cases hresult : operand inside.next.2 with
        | error fault => exact hround.of_error hresult
        | ok result =>
          have hle := (hlaid hresult).length_le
          exact ih (Nat.le_trans hle (Nat.le_of_succ_le_succ hr))
            (Nat.lt_of_le_of_lt hle (Nat.lt_of_succ_lt hb)) (hround.of_ok hresult)
      · rename_i hj
        refine hl.stopped ?_
        intro op' hop
        rw [hpeek] at hop
        cases hop
        exact Bool.eq_false_iff.mpr hj
    · rename_i hpeek
      refine hl.stopped ?_
      intro op hop
      exact absurd hop (hpeek op)

theorem joined_reads (h : Reads tokens bound taken makes operand) (hlaid : LaysOut operand)
    (hfirst : ∀ {outer p e whole}, makes outer p e whole → makes' outer p e whole)
    (hjoin : ∀ {outer p p' e e' left right op}, joins op = true → makes' outer p e left →
      makes (p.push e op) p' e' right → makes' outer p' e' (.binary op left right)) :
    Reads tokens bound (fun op => taken op || joins op) makes' (joined operand joins) := by
  intro before outer gs ha hb
  cases hleft : operand before with
  | error fault =>
    unfold joined
    rw [hleft]
    exact (h ha hb).of_error hleft
  | ok result =>
    obtain ⟨left, inside⟩ := result
    have hle := (hlaid hleft).length_le
    obtain ⟨e, bare, p, whole, ha', hs, hm, hl⟩ := (h ha hb).of_ok hleft
    unfold joined
    rw [hleft, Outcome.ok_bind]
    exact chain_reads h hlaid hjoin (Nat.le_refl _) (Nat.lt_of_le_of_lt hle hb)
      ⟨e, bare, p, whole, ha', hs, hfirst hm, hl⟩

theorem term_reads (hne : tokens ≠ []) (hlaid : LaysOut expression)
    (h : Reads tokens depth (fun _ => true) MakesExpression expression) :
    Reads tokens (depth + 1) (fun op => false || op.isProduct) MakesTerm (term expression) := by
  refine joined_reads (factor_reads hne h) (factor_laysOut hlaid) ?_ ?_
  · rintro outer p e whole ⟨rfl, rfl⟩ hp
    refine ⟨rfl, ?_⟩
    rw [Pending.term, hp]
    rfl
  · rintro outer p p' e e' left right op hj hm ⟨rfl, rfl⟩ hp
    obtain ⟨hsum, rfl⟩ := hm hp
    rw [Pending.push, if_pos hj]
    exact ⟨hsum, rfl⟩

/-- The induction is on how deep groups may lie within each other: an inner group has a token less
to read. -/
theorem expression_reads (hne : tokens ≠ []) (depth : Nat) :
    Reads tokens depth (fun _ => true) MakesExpression (Parser.expression depth) := by
  induction depth with
  | zero =>
    intro before outer gs _ hb
    exact absurd hb (Nat.not_lt_zero _)
  | succ depth ih =>
    have hlaid := expression_laysOut depth
    have htaken : (fun op : Operator => (false || op.isProduct) || !op.isProduct) =
        fun _ => true := by
      funext op
      cases op <;> rfl
    rw [← htaken]
    refine joined_reads (term_reads hne hlaid ih) (term_laysOut hlaid) ?_ ?_
    · rintro outer p e whole hm rfl
      obtain ⟨hsum, rfl⟩ := hm rfl
      rw [Pending.expression, hsum]
      rfl
    · rintro outer p p' e e' left right op hj hm hm' hp
      have hsign : op.isProduct = false := by simpa using hj
      rw [Pending.push, hsign] at hm'
      obtain ⟨hsum, rfl⟩ := hm' rfl
      rw [← hm hp, Pending.expression, hsum]
      rfl

end Parser

namespace Tree

/-- The descent builds the tree of the expression that is read token by token, or refuses for the
same fault. -/
theorem ofTokens_of_ne_nil {ts : List Token} (h : ts ≠ []) :
    Tree.ofTokens ts = Tree.ofExpr <$> Expr.ofTokens ts := by
  have hstart : Parser.Abreast ts { tokens := { items := ts } } ⟨.operand, {}, []⟩ :=
    ⟨[], rfl, rfl, rfl⟩
  have hreads := Parser.expression_reads h (ts.length + 1) hstart (Nat.lt_succ_self _)
  unfold Tree.ofTokens
  rw [if_neg (by simpa using h)]
  cases hroot : Parser.expression (ts.length + 1) { tokens := { items := ts } } with
  | error fault =>
    have hfault : Expr.ofTokens ts = .error fault := hreads.of_error hroot
    rw [hfault]
    rfl
  | ok result =>
    obtain ⟨root, after⟩ := result
    obtain ⟨e, bare, p, whole, ha, hs, hwhole, hl⟩ := hreads.of_ok hroot
    rw [Outcome.ok_bind]
    simp only
    split
    · rename_i token hpeek
      have hfault : Expr.ofTokens ts = .error (.unexpectedToken token.text) :=
        ha.refused_behind hs (Parser.next_of_peek hpeek) fun _ => rfl
      rw [hfault]
      rfl
    · rename_i hpeek
      obtain ⟨_, hfinish⟩ := ha.ended (List.head?_eq_none_iff.mp hpeek)
      have hexpr : Expr.ofTokens ts = .ok (p.expression e) := hfinish
      rw [hexpr, hwhole rfl]
      change _ = Except.ok (Tree.ofExpr whole)
      rw [Tree.ofExpr]
      simp only [hl]

end Tree

end DeskCalculator
