import Multiplix.Lib.ByteMem

/-! `expand` of `tools.rvregs.expand`, and the templates that it is for. -/
namespace Multiplix.Tools
open Lib

def chr (c : Char) : Byte := BitVec.ofNat 8 c.toNat

def varStart (b : Byte) : Bool :=
  (decide (chr 'a' ≤ b) && decide (b ≤ chr 'z')) ||
    (decide (chr 'A' ≤ b) && decide (b ≤ chr 'Z')) || b == chr '_'

def varInner (b : Byte) : Bool := varStart b || (decide (chr '0' ≤ b) && decide (b ≤ chr '9'))

/-- A resolver may keep a state of type `S`, which it shares with the other. -/
abbrev Resolver (S E : Type) := List Byte → S → Except E (List Byte) × S

structure Expander (S E : Type) where
  buf : List Byte
  exprbuf : List Byte
  braceLevel : ℕ
  inExpr : Bool
  inVar : Bool
  expandErr : Option E
  resolvers : S

section expand

variable {S E : Type} (rvar rexpr : Resolver S E) (special : Byte) (escape : Bool)

/-- A resolver is called with the buffered name. Where it fails, what it was called for is kept,
between `pre` and `post`. -/
def Expander.call (r : Resolver S E) (pre post : List Byte) (st : Expander S E) : Expander S E :=
  match r st.exprbuf st.resolvers with
  | (.ok value, s) => { st with buf := st.buf ++ value, exprbuf := [], resolvers := s }
  | (.error err, s) =>
    { st with buf := st.buf ++ (pre ++ st.exprbuf ++ post), exprbuf := [],
              expandErr := st.expandErr.or (some err), resolvers := s }

/-- The end of a turn: a byte of a name, or one that stands for itself. -/
def Expander.put (b : Byte) (rest : List Byte) (st : Expander S E) : Expander S E :=
  if st.inExpr || (st.inVar && varInner b) then
    let st := { st with exprbuf := st.exprbuf ++ [b] }
    if st.inVar && rest.head?.all fun p => !varInner p then
      { st with inVar := false }.call rvar [special] []
    else st
  else if !st.inExpr && !st.inVar then { st with buf := st.buf ++ [b] }
  else st

/-- The loop of `expand` over the bytes that have not been read. -/
def expandLoop : List Byte → Expander S E → Expander S E
  | [], st => st
  | b :: rest, st =>
    if b = special then
      if st.inExpr then expandLoop rest (st.put rvar special b rest)
      else
        match rest with
        | [] => st.put rvar special b []
        | p :: rest' =>
          if p = special then
            expandLoop rest'
              { st with buf := st.buf ++ (if escape then [special] else [special, special]) }
          else if p = chr '(' then expandLoop rest' { st with inExpr := true, braceLevel := 0 }
          else if varStart p then expandLoop (p :: rest') { st with inVar := true }
          else expandLoop (p :: rest') (st.put rvar special b (p :: rest'))
    else if b = chr '(' then
      let st := if st.inExpr then { st with braceLevel := st.braceLevel + 1 } else st
      expandLoop rest (st.put rvar special b rest)
    else if b = chr ')' then
      if st.inExpr && st.braceLevel == 0 then
        expandLoop rest ({ st with inExpr := false }.call rexpr [special, chr '('] [chr ')'])
      else
        let st := if st.inExpr then { st with braceLevel := st.braceLevel - 1 } else st
        expandLoop rest (st.put rvar special b rest)
    else expandLoop rest (st.put rvar special b rest)

/-- The text with the error, and the state that the resolvers are left in. -/
def expandSpecial (s : List Byte) (resolvers : S) : (List Byte × Option E) × S :=
  let st := expandLoop rvar rexpr special escape s
    { buf := [], exprbuf := [], braceLevel := 0, inExpr := false, inVar := false,
      expandErr := none, resolvers := resolvers }
  ((st.buf, st.expandErr), st.resolvers)

def expand (s : List Byte) (resolvers : S) : (List Byte × Option E) × S :=
  expandSpecial rvar rexpr (chr '$') escape s resolvers

end expand

/-! ### Templates -/

/-- Parentheses are in pairs. -/
inductive Balanced : List Byte → Prop
  | nil : Balanced []
  | byte {b : Byte} {s : List Byte} : b ≠ chr '(' → b ≠ chr ')' → Balanced s → Balanced (b :: s)
  | paren {inner s : List Byte} : Balanced inner → Balanced s →
      Balanced (chr '(' :: inner ++ chr ')' :: s)

/-- No parenthesis ends what was opened. -/
def Unclosed (s : List Byte) : Prop := ∀ body rest, Balanced body → s ≠ body ++ chr ')' :: rest

inductive Token
  | literal (b : Byte)
  | special
  | var (name : List Byte)
  | expr (body : List Byte)

/-- The tokens of a string up to where it goes on with another. -/
inductive Parses (special : Byte) : List Byte → List Token → List Byte → Prop
  | nil {s : List Byte} : Parses special s [] s
  | literal {b : Byte} {s rest : List Byte} {ts : List Token} : b ≠ special →
      Parses special s ts rest → Parses special (b :: s) (.literal b :: ts) rest
  /-- A special character that begins nothing. -/
  | alone {s rest : List Byte} {ts : List Token} :
      (∀ p ∈ s.head?, p ≠ special ∧ p ≠ chr '(' ∧ varStart p = false) →
      Parses special s ts rest → Parses special (special :: s) (.literal special :: ts) rest
  | double {s rest : List Byte} {ts : List Token} : Parses special s ts rest →
      Parses special (special :: special :: s) (.special :: ts) rest
  /-- The name is as long as possible. -/
  | var {n : Byte} {name s rest : List Byte} {ts : List Token} : varStart n = true →
      (∀ b ∈ name, varInner b = true) → (∀ p ∈ s.head?, varInner p = false) →
      Parses special s ts rest →
      Parses special (special :: n :: name ++ s) (.var (n :: name) :: ts) rest
  | expr {body s rest : List Byte} {ts : List Token} : Balanced body → Parses special s ts rest →
      Parses special (special :: chr '(' :: body ++ chr ')' :: s) (.expr body :: ts) rest

section eval

variable {S E : Type} (rvar rexpr : Resolver S E) (special : Byte) (escape : Bool)

def Token.text : Token → List Byte
  | .literal b => [b]
  | .special => [special, special]
  | .var name => special :: name
  | .expr body => special :: chr '(' :: body ++ [chr ')']

def Token.eval (resolvers : S) : Token → Except E (List Byte) × S
  | .literal b => (.ok [b], resolvers)
  | .special => (.ok (if escape then [special] else [special, special]), resolvers)
  | .var name => rvar name resolvers
  | .expr body => rexpr body resolvers

/-- The values of the tokens in order, if every call succeeds. -/
def evalTokens : List Token → S → Option (List Byte × S)
  | [], s => some ([], s)
  | t :: ts, s =>
    match t.eval rvar rexpr special escape s with
    | (.error _, _) => none
    | (.ok value, s) => (evalTokens ts s).map fun (v, s) => (value ++ v, s)

/-- `ExpandSpecial` succeeds on the templates whose calls do, with their value. -/
def Accepts (s : List Byte) (resolvers : S) : Prop := ∀ value resolvers',
  expandSpecial rvar rexpr special escape s resolvers = ((value, none), resolvers') ↔
    ∃ ts, Parses special s ts [] ∧
      evalTokens rvar rexpr special escape ts resolvers = some (value, resolvers')

end eval

/-! ### The loop -/

variable {S E : Type} {rvar rexpr : Resolver S E} {special : Byte} {escape : Bool}
  {buf e body name rest : List Byte} {b n p : Byte} {k : ℕ} {err : Option E} {resolvers : S}

/-- A special character is neither part of a name nor a parenthesis. -/
structure IsSpecial (special : Byte) : Prop where
  inner : varInner special = false
  left : special ≠ chr '('
  right : special ≠ chr ')'

/-- Between two tokens. -/
def idle (buf : List Byte) (k : ℕ) (err : Option E) (resolvers : S) : Expander S E :=
  ⟨buf, [], k, false, false, err, resolvers⟩

/-- In an expression, of which `e` has been read. -/
def inside (buf e : List Byte) (k : ℕ) (err : Option E) (resolvers : S) : Expander S E :=
  ⟨buf, e, k, true, false, err, resolvers⟩

/-- In a name, of which `e` has been read. -/
def named (buf e : List Byte) (k : ℕ) (err : Option E) (resolvers : S) : Expander S E :=
  ⟨buf, e, k, false, true, err, resolvers⟩

theorem expandLoop_literal (h : b ≠ special) :
    expandLoop rvar rexpr special escape (b :: rest) (idle buf k err resolvers) =
      expandLoop rvar rexpr special escape rest (idle (buf ++ [b]) k err resolvers) := by
  rw [expandLoop.eq_def]
  dsimp only
  rw [if_neg h]
  by_cases hl : b = chr '('
  · rw [if_pos hl]
    rfl
  rw [if_neg hl]
  by_cases hr : b = chr ')'
  · rw [if_pos hr]
    rfl
  · rw [if_neg hr]
    rfl

/-- A special character before another byte. -/
theorem expandLoop_open : expandLoop rvar rexpr special escape (special :: p :: rest)
      (idle buf k err resolvers) =
    if p = special then
      expandLoop rvar rexpr special escape rest
        (idle (buf ++ (if escape then [special] else [special, special])) k err resolvers)
    else if p = chr '(' then
      expandLoop rvar rexpr special escape rest (inside buf [] 0 err resolvers)
    else if varStart p then
      expandLoop rvar rexpr special escape (p :: rest) (named buf [] k err resolvers)
    else
      expandLoop rvar rexpr special escape (p :: rest)
        (idle (buf ++ [special]) k err resolvers) := by
  rw [expandLoop.eq_def]
  dsimp only
  rw [if_pos rfl, if_neg (show ¬ (idle buf k err resolvers).inExpr = true from Bool.false_ne_true)]
  rfl

theorem expandLoop_alone (h : ∀ p ∈ rest.head?, p ≠ special ∧ p ≠ chr '(' ∧ varStart p = false) :
    expandLoop rvar rexpr special escape (special :: rest) (idle buf k err resolvers) =
      expandLoop rvar rexpr special escape rest (idle (buf ++ [special]) k err resolvers) := by
  cases rest with
  | nil =>
    rw [expandLoop.eq_def]
    dsimp only
    rw [if_pos rfl]
    rfl
  | cons p rest =>
    obtain ⟨h1, h2, h3⟩ := h p rfl
    rw [expandLoop_open, if_neg h1, if_neg h2, if_neg (by rw [h3]; decide)]

theorem expandLoop_inside (hl : b ≠ chr '(') (hr : b ≠ chr ')') :
    expandLoop rvar rexpr special escape (b :: rest) (inside buf e k err resolvers) =
      expandLoop rvar rexpr special escape rest (inside buf (e ++ [b]) k err resolvers) := by
  rw [expandLoop.eq_def]
  dsimp only
  rw [if_neg hl, if_neg hr]
  by_cases hs : b = special
  · rw [if_pos hs]
    rfl
  · rw [if_neg hs]
    rfl

theorem expandLoop_left (hs : IsSpecial special) :
    expandLoop rvar rexpr special escape (chr '(' :: rest) (inside buf e k err resolvers) =
      expandLoop rvar rexpr special escape rest
        (inside buf (e ++ [chr '(']) (k + 1) err resolvers) := by
  rw [expandLoop.eq_def]
  dsimp only
  rw [if_neg hs.left.symm, if_pos rfl]
  rfl

theorem expandLoop_right (hs : IsSpecial special) :
    expandLoop rvar rexpr special escape (chr ')' :: rest) (inside buf e (k + 1) err resolvers) =
      expandLoop rvar rexpr special escape rest (inside buf (e ++ [chr ')']) k err resolvers) := by
  rw [expandLoop.eq_def]
  dsimp only
  rw [if_neg hs.right.symm, if_neg (by decide), if_pos rfl]
  rfl

theorem expandLoop_end (hs : IsSpecial special) :
    expandLoop rvar rexpr special escape (chr ')' :: rest) (inside buf e 0 err resolvers) =
      expandLoop rvar rexpr special escape rest
        (Expander.call rexpr [special, chr '('] [chr ')']
          ⟨buf, e, 0, false, false, err, resolvers⟩) := by
  rw [expandLoop.eq_def]
  dsimp only
  rw [if_neg hs.right.symm, if_neg (by decide), if_pos rfl]
  rfl

/-- Pairs of parentheses are read at the level that they begin at. -/
theorem Balanced.expandLoop (hs : IsSpecial special) (h : Balanced body) :
    expandLoop rvar rexpr special escape (body ++ rest) (inside buf e k err resolvers) =
      expandLoop rvar rexpr special escape rest (inside buf (e ++ body) k err resolvers) := by
  induction h generalizing e k rest with
  | nil => rw [List.nil_append, List.append_nil]
  | byte hl hr _ ih =>
    rw [List.cons_append, expandLoop_inside hl hr, ih, List.append_assoc, List.singleton_append]
  | paren _ _ ih ih' =>
    rw [List.cons_append, List.cons_append, List.append_assoc, expandLoop_left hs, ih,
      List.cons_append, expandLoop_right hs, ih']
    simp only [List.append_assoc, List.cons_append, List.nil_append]

/-- What is not closed is swallowed. -/
theorem expandLoop_unclosed (rvar rexpr : Resolver S E) (escape : Bool) (buf : List Byte)
    (err : Option E) (resolvers : S) (hs : IsSpecial special) (s : List Byte) :
    (∃ body rest, Balanced body ∧ s = body ++ chr ')' :: rest) ∨
      ∀ (k : ℕ) (e : List Byte), ∃ k' e', Tools.expandLoop rvar rexpr special escape s
        (inside buf e k err resolvers) = inside buf e' k' err resolvers := by
  induction hn : s.length using Nat.strong_induction_on generalizing s with
  | _ n ih =>
    cases s with
    | nil => exact Or.inr fun k e => ⟨k, e, rfl⟩
    | cons b s =>
      rw [List.length_cons] at hn
      by_cases hr : b = chr ')'
      · exact Or.inl ⟨[], s, .nil, by rw [hr, List.nil_append]⟩
      by_cases hl : b = chr '('
      swap
      · rcases ih s.length (by omega) s rfl with ⟨body, rest, hb, rfl⟩ | hall
        · exact Or.inl ⟨b :: body, rest, .byte hl hr hb, rfl⟩
        · refine Or.inr fun k e => ?_
          rw [expandLoop_inside hl hr]
          exact hall k _
      subst hl
      rcases ih s.length (by omega) s rfl with ⟨inner, s', hi, rfl⟩ | hall
      · rw [List.length_append, List.length_cons] at hn
        rcases ih s'.length (by omega) s' rfl with ⟨body, rest, hb, rfl⟩ | hall
        · refine Or.inl ⟨_, rest, .paren hi hb, ?_⟩
          simp only [List.append_assoc, List.cons_append]
        · refine Or.inr fun k e => ?_
          rw [expandLoop_left hs, hi.expandLoop hs, expandLoop_right hs]
          exact hall k _
      · refine Or.inr fun k e => ?_
        rw [expandLoop_left hs]
        exact hall _ _

/-- A byte of a name is neither special nor a parenthesis. -/
theorem expandLoop_inner (hs : IsSpecial special) (hn : varInner n = true) :
    expandLoop rvar rexpr special escape (n :: rest) (named buf e k err resolvers) =
      expandLoop rvar rexpr special escape rest
        ((named buf e k err resolvers).put rvar special n rest) := by
  have hne : ∀ c, varInner c = false → n ≠ c := by
    rintro c hc rfl
    rw [hn] at hc
    cases hc
  rw [expandLoop.eq_def]
  dsimp only
  rw [if_neg (hne _ hs.inner), if_neg (hne _ (by decide)), if_neg (hne _ (by decide))]

theorem put_more (hn : varInner n = true) (hp : varInner p = true) :
    (named buf e k err resolvers).put rvar special n (p :: rest) =
      named buf (e ++ [n]) k err resolvers := by
  simp [Expander.put, named, hn, hp]

theorem put_last (hn : varInner n = true) (hrest : ∀ p ∈ rest.head?, varInner p = false) :
    (named buf e k err resolvers).put rvar special n rest =
      Expander.call rvar [special] [] ⟨buf, e ++ [n], k, false, false, err, resolvers⟩ := by
  have hall : (rest.head?.all fun p => !varInner p) = true :=
    (Option.all_eq_true _ _).mpr fun p hp => by rw [hrest p hp]; rfl
  simp [Expander.put, named, hn, hall]

theorem expandLoop_name (hs : IsSpecial special) (hn : varInner n = true)
    (hname : ∀ b ∈ name, varInner b = true) (hrest : ∀ p ∈ rest.head?, varInner p = false) :
    expandLoop rvar rexpr special escape (n :: name ++ rest) (named buf e k err resolvers) =
      expandLoop rvar rexpr special escape rest
        (Expander.call rvar [special] []
          ⟨buf, e ++ n :: name, k, false, false, err, resolvers⟩) := by
  induction name generalizing n e with
  | nil => rw [List.singleton_append, expandLoop_inner hs hn, put_last hn hrest]
  | cons p name ih =>
    have hp := hname p List.mem_cons_self
    rw [List.cons_append, List.cons_append, expandLoop_inner hs hn, put_more hn hp,
      ← List.cons_append, ih hp fun b hb => hname b (List.mem_cons_of_mem _ hb),
      List.append_assoc, List.singleton_append]

/-- What a token leaves: its value, or its text with an error. -/
def after (r : Except E (List Byte) × S) (text buf : List Byte) (k : ℕ) (err : Option E) :
    Expander S E :=
  match r with
  | (.ok value, s) => idle (buf ++ value) k err s
  | (.error x, s) => idle (buf ++ text) k (err.or (some x)) s

theorem call_eq (r : Resolver S E) (pre post : List Byte) :
    Expander.call r pre post ⟨buf, e, k, false, false, err, resolvers⟩ =
      after (r e resolvers) (pre ++ e ++ post) buf k err := by
  unfold Expander.call after
  dsimp only
  rcases r e resolvers with ⟨_ | _, _⟩ <;> rfl

/-- The loop has read the tokens, with their value unless a call failed. -/
def Reads (rvar rexpr : Resolver S E) (special : Byte) (escape : Bool) (s : List Byte)
    (ts : List Token) (rest : List Byte) : Prop :=
  ∀ (buf : List Byte) (k : ℕ) (err : Option E) (resolvers : S),
    ∃ buf' k' err' resolvers',
      expandLoop rvar rexpr special escape s (idle buf k err resolvers) =
        expandLoop rvar rexpr special escape rest (idle buf' k' err' resolvers') ∧
      ((∃ value, evalTokens rvar rexpr special escape ts resolvers = some (value, resolvers') ∧
          buf' = buf ++ value ∧ err' = err) ∨
        evalTokens rvar rexpr special escape ts resolvers = none ∧ err' ≠ none)

theorem Reads.cons {s s' : List Byte} {t : Token} {ts : List Token}
    (h : Reads rvar rexpr special escape s ts rest)
    (ht : ∀ buf k err resolvers, ∃ text k',
      expandLoop rvar rexpr special escape s' (idle buf k err resolvers) =
        expandLoop rvar rexpr special escape s
          (after (t.eval rvar rexpr special escape resolvers) text buf k' err)) :
    Reads rvar rexpr special escape s' (t :: ts) rest := by
  intro buf k err resolvers
  obtain ⟨text, k', hs'⟩ := ht buf k err resolvers
  rw [hs', evalTokens]
  rcases t.eval rvar rexpr special escape resolvers with ⟨x | value, r⟩
  · obtain ⟨buf', k'', err', r', hl, hcase⟩ := h (buf ++ text) k' (err.or (some x)) r
    refine ⟨buf', k'', err', r', hl, Or.inr ⟨rfl, ?_⟩⟩
    rcases hcase with ⟨-, -, -, rfl⟩ | ⟨-, herr⟩
    · cases err <;> exact Option.some_ne_none _
    · exact herr
  · obtain ⟨buf', k'', err', r', hl, hcase⟩ := h (buf ++ value) k' err r
    refine ⟨buf', k'', err', r', hl, ?_⟩
    rcases hcase with ⟨v, hv, rfl, rfl⟩ | ⟨hnone, herr⟩
    · refine Or.inl ⟨value ++ v, ?_, List.append_assoc _ _ _, rfl⟩
      dsimp only
      rw [hv]
      rfl
    · refine Or.inr ⟨?_, herr⟩
      dsimp only
      rw [hnone]
      rfl

theorem Parses.reads {s : List Byte} {ts : List Token} (h : Parses special s ts rest)
    (hs : IsSpecial special) (rvar rexpr : Resolver S E) (escape : Bool) :
    Reads rvar rexpr special escape s ts rest := by
  induction h with
  | nil => exact fun buf k err r =>
      ⟨buf, k, err, r, rfl, Or.inl ⟨[], rfl, (List.append_nil buf).symm, rfl⟩⟩
  | literal hb _ ih => exact ih.cons fun buf k err r => ⟨[], k, expandLoop_literal hb⟩
  | alone hp _ ih => exact ih.cons fun buf k err r => ⟨[], k, expandLoop_alone hp⟩
  | double _ ih =>
    refine ih.cons fun buf k err r => ⟨[], k, ?_⟩
    rw [expandLoop_open, if_pos rfl]
    rfl
  | @var n name s rest ts hn hname hrest _ ih =>
    refine ih.cons fun buf k err r => ⟨[special] ++ n :: name ++ [], k, ?_⟩
    have hinner : varInner n = true := by rw [varInner, hn, Bool.true_or]
    have hne : ∀ c, varInner c = false → n ≠ c := by
      rintro c hc rfl
      rw [hinner] at hc
      cases hc
    rw [List.cons_append, List.cons_append, expandLoop_open, if_neg (hne _ hs.inner),
      if_neg (hne _ (by decide)), if_pos hn]
    refine (expandLoop_name hs hinner hname hrest).trans (congrArg _ ?_)
    exact call_eq _ _ _
  | @expr body s rest ts hb _ ih =>
    refine ih.cons fun buf k err r => ⟨[special, chr '('] ++ body ++ [chr ')'], 0, ?_⟩
    rw [List.cons_append, List.cons_append, expandLoop_open, if_neg hs.left.symm, if_pos rfl]
    refine (hb.expandLoop (e := []) hs).trans ?_
    rw [expandLoop_end hs, call_eq]
    rfl

/-- A string is a template, or has an expression that does not end. -/
theorem parses_or_unclosed (special : Byte) (s : List Byte) : (∃ ts, Parses special s ts []) ∨
    ∃ ts body, Parses special s ts (special :: chr '(' :: body) ∧ Unclosed body := by
  -- what holds behind a token holds before it
  have hcons {s s' : List Byte} {t : Token}
      (h : ∀ ts rest, Parses special s ts rest → Parses special s' (t :: ts) rest) :
      ((∃ ts, Parses special s ts []) ∨
        ∃ ts body, Parses special s ts (special :: chr '(' :: body) ∧ Unclosed body) →
      (∃ ts, Parses special s' ts []) ∨
        ∃ ts body, Parses special s' ts (special :: chr '(' :: body) ∧ Unclosed body := by
    rintro (⟨ts, hts⟩ | ⟨ts, body, hts, hu⟩)
    · exact Or.inl ⟨_, h ts _ hts⟩
    · exact Or.inr ⟨_, body, h ts _ hts, hu⟩
  induction hn : s.length using Nat.strong_induction_on generalizing s with
  | _ n ih =>
    rcases s with _ | ⟨b, s⟩
    · exact Or.inl ⟨[], .nil⟩
    rw [List.length_cons] at hn
    have hs := ih s.length (by omega) s rfl
    by_cases hb : b = special
    swap
    · exact hcons (fun _ _ => .literal hb) hs
    subst hb
    rcases s with _ | ⟨p, s⟩
    · exact hcons (fun _ _ => .alone fun p hp => absurd hp (Option.not_mem_none p)) hs
    rw [List.length_cons] at hn
    by_cases hp : p = b
    · subst hp
      exact hcons (fun _ _ => .double) (ih s.length (by omega) s rfl)
    by_cases hl : p = chr '('
    · subst hl
      by_cases hclosed : ∃ body rest, Balanced body ∧ s = body ++ chr ')' :: rest
      · obtain ⟨body, rest, hbody, rfl⟩ := hclosed
        rw [List.length_append, List.length_cons] at hn
        exact hcons (fun _ _ => .expr hbody) (ih rest.length (by omega) rest rfl)
      · exact Or.inr ⟨[], s, .nil, fun body rest hbody he => hclosed ⟨body, rest, hbody, he⟩⟩
    cases hstart : varStart p with
    | false => exact hcons (fun _ _ => .alone fun q hq => by cases hq; exact ⟨hp, hl, hstart⟩) hs
    | true =>
      have happ := List.takeWhile_append_dropWhile (p := varInner) (l := s)
      have hlen := congrArg List.length happ
      rw [List.length_append] at hlen
      have hrest : ∀ q ∈ (s.dropWhile varInner).head?, varInner q = false := fun q hq => by
        have hnot := List.head?_dropWhile_not varInner s
        rw [hq] at hnot
        simpa using hnot
      have hname : ∀ q ∈ s.takeWhile varInner, varInner q = true :=
        List.all_eq_true.mp List.all_takeWhile
      have hvar := @hcons (s.dropWhile varInner) (b :: p :: s) (.var (p :: s.takeWhile varInner))
        fun ts rest hts => by
          have h := Parses.var hstart hname hrest hts
          rwa [List.cons_append, List.cons_append, happ] at h
      exact hvar (ih (s.dropWhile varInner).length (by omega) _ rfl)

theorem expandLoop_swallow (rvar rexpr : Resolver S E) (escape : Bool) (buf : List Byte) (k : ℕ)
    (err : Option E) (resolvers : S) (hs : IsSpecial special) (hu : Unclosed body) : ∃ e' k',
    expandLoop rvar rexpr special escape (special :: chr '(' :: body) (idle buf k err resolvers) =
      inside buf e' k' err resolvers := by
  rw [expandLoop_open, if_neg hs.left.symm, if_pos rfl]
  rcases expandLoop_unclosed rvar rexpr escape buf err resolvers hs body with
    ⟨inner, rest, hi, rfl⟩ | hall
  · exact absurd rfl (hu inner rest hi)
  · obtain ⟨k', e', he⟩ := hall 0 []
    exact ⟨e', k', he⟩

/-- Behind a template the loop is between two tokens, and not in an expression. -/
theorem Accepts.eval_eq_none {s : List Byte} {ts : List Token} (hs : IsSpecial special)
    (h : Accepts rvar rexpr special escape s resolvers)
    (hts : Parses special s ts (special :: chr '(' :: body)) (hu : Unclosed body) :
    evalTokens rvar rexpr special escape ts resolvers = none := by
  obtain ⟨buf, k, err, r, hl, hcase⟩ := hts.reads hs rvar rexpr escape [] 0 none resolvers
  rcases hcase with ⟨-, -, -, rfl⟩ | ⟨hnone, -⟩
  swap
  · exact hnone
  obtain ⟨e', k', hend⟩ := expandLoop_swallow rvar rexpr escape buf k none r hs hu
  rw [hend] at hl
  obtain ⟨ts', hts', -⟩ := (h buf r).mp
    (congrArg (fun st : Expander S E => ((st.buf, st.expandErr), st.resolvers)) hl)
  obtain ⟨buf, k, err, r, hl', -⟩ := hts'.reads hs rvar rexpr escape [] 0 none resolvers
  have hexpr := congrArg Expander.inExpr (hl.symm.trans hl')
  cases hexpr

/-- A string that is no template is accepted all the same, as what stands before the expression that
does not end, unless a call fails there. -/
theorem accepts_iff (hs : IsSpecial special) (s : List Byte) (resolvers : S) :
    Accepts rvar rexpr special escape s resolvers ↔
      ∀ ts body, Parses special s ts (special :: chr '(' :: body) → Unclosed body →
        evalTokens rvar rexpr special escape ts resolvers = none := by
  refine ⟨fun h ts body hts hu => h.eval_eq_none hs hts hu, fun h value r' => ⟨fun heq => ?_, ?_⟩⟩
  · change (let st := expandLoop rvar rexpr special escape s (idle [] 0 none resolvers)
      ((st.buf, st.expandErr), st.resolvers)) = _ at heq
    rcases parses_or_unclosed special s with ⟨ts, hts⟩ | ⟨ts, body, hts, hu⟩
    · obtain ⟨buf, k, err, r, hl, hcase⟩ := hts.reads hs rvar rexpr escape [] 0 none resolvers
      rw [hl, expandLoop.eq_def] at heq
      cases heq
      rcases hcase with ⟨v, hv, rfl, -⟩ | ⟨-, herr⟩
      · exact ⟨ts, hts, hv⟩
      · exact absurd rfl herr
    · obtain ⟨buf, k, err, r, hl, hcase⟩ := hts.reads hs rvar rexpr escape [] 0 none resolvers
      rcases hcase with ⟨v, hv, -, -⟩ | ⟨-, herr⟩
      · rw [h ts body hts hu] at hv
        cases hv
      · obtain ⟨e', k', hend⟩ := expandLoop_swallow rvar rexpr escape buf k err r hs hu
        rw [hl, hend] at heq
        exact absurd (congrArg (fun x => x.1.2) heq) herr
  · rintro ⟨ts, hts, hv⟩
    obtain ⟨buf, k, err, r, hl, hcase⟩ := hts.reads hs rvar rexpr escape [] 0 none resolvers
    rcases hcase with ⟨v, hv', rfl, rfl⟩ | ⟨hnone, -⟩
    · rw [hv] at hv'
      cases hv'
      exact congrArg (fun st : Expander S E => ((st.buf, st.expandErr), st.resolvers)) hl
    · rw [hv] at hnone
      cases hnone

/-- Nothing of a template is lost: it is the texts of its tokens. -/
theorem Parses.text {s : List Byte} {ts : List Token} (h : Parses special s ts rest) :
    s = ts.flatMap (Token.text special) ++ rest := by
  induction h with
  | nil => rfl
  | literal _ _ ih => rw [List.flatMap_cons, List.append_assoc, ← ih]; rfl
  | alone _ _ ih => rw [List.flatMap_cons, List.append_assoc, ← ih]; rfl
  | double _ ih => rw [List.flatMap_cons, List.append_assoc, ← ih]; rfl
  | var _ _ _ _ ih => rw [List.flatMap_cons, List.append_assoc, ← ih]; rfl
  | expr _ _ ih =>
    rw [List.flatMap_cons, List.append_assoc, ← ih]
    simp [Token.text]

/-- A name and a doubled dollar sign. -/
theorem accepts_iff_name : Accepts (S := Unit) (E := Unit) (fun name s => (.ok name, s))
    (fun body s => (.ok body, s)) (chr '$') true [chr '$', chr 'a', chr '$', chr '$'] () := by
  refine (accepts_iff ⟨by decide, by decide, by decide⟩ _ _).mpr fun ts body hts _ => ?_
  have hmem : chr '(' ∈ [chr '$', chr 'a', chr '$', chr '$'] := by
    rw [hts.text]
    simp
  exact absurd hmem (by decide)

/-- An expression that does not end. -/
theorem not_accepts_open : ¬ Accepts (S := Unit) (E := Unit) (fun name s => (.ok name, s))
    (fun body s => (.ok body, s)) (chr '$') true [chr '$', chr '(', chr 'a'] () := by
  intro h
  have hu : Unclosed [chr 'a'] := fun body rest _ he => by
    have hmem : chr ')' ∈ [chr 'a'] := by
      rw [he]
      simp
    exact absurd hmem (by decide)
  have hnone := h.eval_eq_none ⟨by decide, by decide, by decide⟩ .nil hu
  cases hnone

end Multiplix.Tools
