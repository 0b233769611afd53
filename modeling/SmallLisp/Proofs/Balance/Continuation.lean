import SmallLisp.Balance
import SmallLisp.Proofs.Token.Joining

/-! # The verdict and what may still follow

The judge goes through the tokens with a number and a flag. What it makes of a text is decided by
where it stands after the last token, so verdicts on joined texts follow from the way tokens are
joined. A parenthesis too many settles the verdict for good; any other text can be completed, by the
quote of an open string and as many parentheses as are asked for.
-/

namespace SmallLisp

namespace Balance

/-- What the judge keeps between two tokens. -/
structure State where
  /-- The number of open lists. -/
  depth : Nat
  /-- A sigil waits for its datum. -/
  waiting : Bool

namespace State

def start : State := ⟨0, false⟩

/-- The state after a token; none at a parenthesis too many. -/
def next (s : State) : Token → Option State
  | .sigil _ => some ⟨s.depth, true⟩
  | .leftParen => some ⟨s.depth + 1, false⟩
  | .rightParen =>
      if s.waiting then some ⟨s.depth, false⟩
      else
        match s.depth with
        | 0 => none
        | depth + 1 => some ⟨depth, false⟩
  | _ => some ⟨s.depth, false⟩

def run (s : State) (tokens : List Token) : Option State := tokens.foldlM next s

/-- The verdict on a text that ends in this state. -/
def verdict (ending : Ending) (s : State) : Balance := judge ending s.depth s.waiting []

variable {s t : State} {tokens others : List Token}

theorem run_cons (s : State) (first : Token) (tokens : List Token) :
    s.run (first :: tokens) = (s.next first).bind (run · tokens) := List.foldlM_cons

theorem run_append (s : State) (tokens others : List Token) :
    s.run (tokens ++ others) = (s.run tokens).bind (run · others) := List.foldlM_append

theorem judge_eq_run (ending : Ending) (s : State) (tokens : List Token) :
    judge ending s.depth s.waiting tokens =
      match s.run tokens with
      | some t => t.verdict ending
      | none => .overclosed := by
  induction tokens generalizing s with
  | nil => rfl
  | cons first tokens ih =>
      rw [run_cons]
      cases first with
      | sigil => exact ih ⟨s.depth, true⟩
      | leftParen => exact ih ⟨s.depth + 1, false⟩
      | dot | number | symbol | string => exact ih ⟨s.depth, false⟩
      | rightParen =>
          simp only [judge, next]
          split
          · exact ih ⟨s.depth, false⟩
          · cases s.depth with
            | zero => rfl
            | succ depth => exact ih ⟨depth, false⟩

/-- Only a closing parenthesis stops the judge. -/
theorem run_eq_none (stopped : s.run tokens = none) :
    ∃ before after, tokens = before ++ .rightParen :: after ∧ s.run (before ++ [.rightParen]) = none := by
  induction tokens generalizing s with
  | nil => cases stopped
  | cons first tokens ih =>
      rw [run_cons] at stopped
      cases step : s.next first with
      | none =>
          cases first with
          | rightParen => exact ⟨[], tokens, rfl, by rw [List.nil_append, run_cons, step]; rfl⟩
          | sigil | leftParen | dot | number | symbol | string => cases step
      | some t =>
          rw [step] at stopped
          obtain ⟨before, after, rfl, still⟩ := ih stopped
          refine ⟨first :: before, after, rfl, ?_⟩
          rw [List.cons_append, run_cons, step]
          exact still

/-- The number of parentheses that complete a text. A sigil that waits takes one of its own. -/
def asked (s : State) : Nat := s.depth + if s.waiting then 1 else 0

theorem run_asked (s : State) : s.run (List.replicate s.asked .rightParen) = some start := by
  obtain ⟨depth, waiting⟩ := s
  have lists : run ⟨depth, false⟩ (List.replicate depth .rightParen) = some start := by
    induction depth with
    | zero => rfl
    | succ depth ih =>
        rw [List.replicate_succ, run_cons]
        exact ih
  cases waiting with
  | false => exact lists
  | true => exact lists

theorem verdict_start : start.verdict .complete = .balanced := rfl

theorem verdict_ne_overclosed (ending : Ending) (s : State) : s.verdict ending ≠ .overclosed := by
  unfold verdict judge
  cases ending with
  | openString => simp
  | complete =>
      simp only
      split <;> simp

end State

end Balance

open Balance

theorem balance_eq_run (text : String) :
    balance text =
      match State.start.run (lexed text.toList).1 with
      | some s => s.verdict (lexed text.toList).2
      | none => .overclosed :=
  State.judge_eq_run _ State.start _

theorem balance_eq_overclosed_iff {text : String} :
    balance text = .overclosed ↔ State.start.run (lexed text.toList).1 = none := by
  rw [balance_eq_run]
  cases State.start.run (lexed text.toList).1 with
  | none => simp
  | some s => simp [State.verdict_ne_overclosed]

theorem balance_append_of_overclosed {text : String} (more : String)
    (overclosed : balance text = .overclosed) : balance (text ++ more) = .overclosed := by
  rw [balance_eq_overclosed_iff] at overclosed ⊢
  obtain ⟨before, after, tokens, stopped⟩ := State.run_eq_none overclosed
  obtain ⟨later, longer⟩ := lexed_append_rightParen more.toList tokens
  rw [String.toList_append, longer, List.append_cons, State.run_append, stopped]
  rfl

theorem opens_closers (n : Nat) : Opens (List.replicate n ')') (List.replicate n .rightParen) := by
  induction n with
  | zero => exact opens_blanks nofun
  | succ n ih => exact opens_rightParen.append ih

theorem lexed_closers (n : Nat) :
    lexed (List.replicate n ')') = (List.replicate n .rightParen, .complete) := by
  have closed := opens_closers n []
  have nothing : lexed [] = ([], .complete) := lexed_of_blank rfl
  rw [List.append_nil, nothing, List.append_nil] at closed
  exact closed

theorem atWordEnd_closers (n : Nat) : atWordEnd (List.replicate n ')') = true := by
  cases n with
  | zero => rfl
  | succ n => rfl

/-- The text that completes another one whose tokens leave the judge in this state. -/
def Balance.State.completion (ending : Ending) (s : State) : List Char :=
  match ending with
  | .complete => List.replicate s.asked ')'
  | .openString => '"' :: List.replicate s.depth ')'

theorem lexed_append_completion {text : List Char} {s : State}
    (reached : State.start.run (lexed text).1 = some s) :
    ∃ tokens, lexed (text ++ s.completion (lexed text).2) = (tokens, .complete) ∧
      State.start.run tokens = some .start := by
  cases ending : (lexed text).2 with
  | complete =>
      refine ⟨(lexed text).1 ++ List.replicate s.asked .rightParen, ?_, ?_⟩
      · simp only [State.completion]
        rw [spells_of_complete ending _ (atWordEnd_closers _), lexed_closers]
      · rw [State.run_append, reached]
        exact s.run_asked
  | openString =>
      obtain ⟨body, plain, appended⟩ := exists_open_string ending
      have string := spells_string plain _ (atWordEnd_closers s.depth)
      rw [List.cons_append, List.append_assoc, List.singleton_append, lexed_closers] at string
      refine ⟨(lexed text).1 ++
        (.string (String.ofList body) :: List.replicate s.depth .rightParen), ?_, ?_⟩
      · simp only [State.completion]
        rw [appended, string]
        rfl
      · rw [State.run_append, reached]
        exact State.run_asked ⟨s.depth, false⟩

theorem exists_completion {text : String} (fine : balance text ≠ .overclosed) :
    ∃ more : String, balance (text ++ more) = .balanced := by
  rw [Ne, balance_eq_overclosed_iff] at fine
  obtain ⟨s, reached⟩ := Option.ne_none_iff_exists'.mp fine
  obtain ⟨tokens, whole, closed⟩ := lexed_append_completion reached
  refine ⟨String.ofList (s.completion (lexed text.toList).2), ?_⟩
  rw [balance_eq_run, String.toList_append, String.toList_ofList, whole]
  simp only [closed]
  exact State.verdict_start

/-- The verdict on a text is right about everything that may follow it. -/
theorem balance_of_continuations (text : String) :
    (balance text = .overclosed → ∀ more : String, balance (text ++ more) = .overclosed) ∧
      (balance text = .unclosed → ∃ more : String, balance (text ++ more) = .balanced) := by
  constructor
  · intro overclosed more
    exact balance_append_of_overclosed more overclosed
  · intro unclosed
    apply exists_completion
    rw [unclosed]
    nofun

/-- A point that could still go on with a digit does not undo the parenthesis after it, and a text
    that ends in a sigil, a list and a string at once can be completed. -/
theorem balance_of_continuations_open :
    (balance "1.)" = .overclosed ∧ balance ("1.)" ++ "5 (\"") = .overclosed) ∧
      balance "'(1. \"" = .unclosed ∧ ∃ more : String, balance ("'(1. \"" ++ more) = .balanced := by
  have overclosed : balance "1.)" = .overclosed := by decide +kernel
  have unclosed : balance "'(1. \"" = .unclosed := by decide +kernel
  exact ⟨⟨overclosed, (balance_of_continuations "1.)").1 overclosed _⟩, unclosed,
    (balance_of_continuations "'(1. \"").2 unclosed⟩

end SmallLisp
