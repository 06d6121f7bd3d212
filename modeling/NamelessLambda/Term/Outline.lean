import NamelessLambda.Term.Basic

/-!
Contract: the fully labelled text of a term.

Every node is written with its kind and its labelled parts in braces, so the
text shows the tree itself and the exact level of each variable, sentinels
included.

Owns:
- `outline`.
-/

namespace NamelessLambda.Term

/-- Appends the outline of a term to what is already `written`. -/
def outlineOnto (written : String) : Term → String
  | .var level => written ++ "Term \x7b level: " ++ toString level.toInt ++ " \x7d"
  | .lam body => outlineOnto (written ++ "Abstraction \x7b body: ") body ++ " \x7d"
  | .app function argument =>
      let withFunction := outlineOnto (written ++ "Application \x7b func: ") function
      outlineOnto (withFunction ++ ", arg: ") argument ++ " \x7d"

/-- Labelled text of a term. -/
def outline (term : Term) : String := outlineOnto "" term

end NamelessLambda.Term
