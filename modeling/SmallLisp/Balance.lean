import SmallLisp.Token.Lexer

/-! # Balance of a text

Whether a text can be read as it stands, needs more to follow, or closes a list that was never
opened. The last is decided at the parenthesis, whatever follows. -/

namespace SmallLisp

/-- The state of a text that is being typed. -/
inductive Balance where
  | balanced
  /-- A list, a sigil or a string still waits for its end. -/
  | unclosed
  /-- A closing parenthesis has no list to close. -/
  | overclosed
  deriving DecidableEq, Repr

namespace Balance

/-- Judge the tokens left. The number of open lists and whether a sigil waits for its datum say what
    came before. A closing parenthesis after a sigil is the sigil's datum and closes nothing. -/
def judge (ending : Ending) (depth : Nat) (waiting : Bool) : List Token → Balance
  | [] =>
      match ending with
      | .openString => .unclosed
      | .complete => if 0 < depth || waiting then .unclosed else .balanced
  | .sigil _ :: rest => judge ending depth true rest
  | .leftParen :: rest => judge ending (depth + 1) false rest
  | .rightParen :: rest =>
      if waiting then judge ending depth false rest
      else
        match depth with
        | 0 => .overclosed
        | depth + 1 => judge ending depth false rest
  | _ :: rest => judge ending depth false rest

end Balance

def balance (text : String) : Balance :=
  let s := scan text
  Balance.judge s.ending 0 false s.tokens

end SmallLisp
