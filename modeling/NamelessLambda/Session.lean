import NamelessLambda.Evaluation.Limits
import NamelessLambda.Term.Size
import Std.Data.HashSet
import Std.Data.TreeMap

/-!
Contract: what a session remembers between its commands.

Owns:
- named registers, kept in order of their names;
- a set of terms;
- the limits in force.
-/

namespace NamelessLambda

/-- Memory of a session. -/
structure Session where
  registers : Std.TreeMap String Term
  collected : Std.HashSet Term
  limits : Limits

namespace Session

/-- No register, no term, standard limits. -/
def start : Session := ⟨∅, ∅, .standard⟩

def register? (session : Session) (name : String) : Option Term := session.registers.get? name

def store (session : Session) (name : String) (term : Term) : Session :=
  ⟨session.registers.insert name term, session.collected, session.limits⟩

def drop (session : Session) (name : String) : Session :=
  ⟨session.registers.erase name, session.collected, session.limits⟩

/-- Names of the registers in order, each with the size of its term. -/
def inventory (session : Session) : List (String × Nat) :=
  session.registers.toList.map fun (name, term) => (name, term.size)

def contains (session : Session) (term : Term) : Bool := session.collected.contains term

def collect (session : Session) (term : Term) : Session :=
  ⟨session.registers, session.collected.insert term, session.limits⟩

def count (session : Session) : Nat := session.collected.size

def withLimits (session : Session) (limits : Limits) : Session :=
  ⟨session.registers, session.collected, limits⟩

end Session

end NamelessLambda
