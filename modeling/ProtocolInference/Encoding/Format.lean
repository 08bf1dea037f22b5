import ProtocolInference.Encoding.Graphviz
import ProtocolInference.Encoding.Promela
import ProtocolInference.Encoding.Scm
import ProtocolInference.Encoding.Summary
import ProtocolInference.Network.Instrumentation

/-!
# The forms that a model is written in
-/

namespace ProtocolInference

/-- The languages of the model checkers. -/
inductive ModelLanguage where
  | scm
  | promela
  deriving DecidableEq, Repr, Inhabited

/-- The forms of the output. -/
inductive OutputForm where
  | scm
  | promela
  | dot
  | json
  | table
  deriving DecidableEq, Repr, Inhabited

namespace OutputForm

/-- The ending of the names of files in a form. -/
def ending : OutputForm → String
  | .scm => "scm"
  | .promela => "pml"
  | .dot => "dot"
  | .json => "json"
  | .table => "txt"

/-- A network in a form. -/
def network (form : OutputForm) (n : Network) (invariants : List Invariant)
    (report : Option Report) (bound : Nat) : String :=
  match form with
  | .scm => Scm.network n none
  | .promela => Promela.network n invariants bound
  | .dot => Graphviz.network n
  | .json => (Summary.toJson n report).indented ++ "\n"
  | .table => Summary.table n report

/-- An abstraction in a form; only the picture has one of its own. -/
def abstraction (form : OutputForm) (g : Abstraction) : String :=
  match form with
  | .dot => Graphviz.abstraction g
  | _ => g.display ++ "\n"

end OutputForm

/-- The text to check an invariant with. In SCM the events of the invariant are recorded
on a channel of their own; Promela notes them in a variable. -/
def ModelLanguage.checkText (language : ModelLanguage) (n : Network) (invariant : Invariant)
    (bound : Nat) : Except AutomatonFault String :=
  match language with
  | .scm => (n.instrument invariant).map fun m => Scm.network m (some invariant)
  | .promela => .ok (Promela.network n [invariant] bound)

end ProtocolInference
