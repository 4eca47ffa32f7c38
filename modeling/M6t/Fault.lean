import M6t.Text

/-! Errors as Go builds them: a sentinel that `errors.Is` finds, under the
sentences each `fmt.Errorf("…: %w")` put in front of it, outermost first. -/
namespace M6t.Fault
open M6t.Text

inductive Piece where
  | text (s : String)
  | shown (v : Str)
  | quoted (v : Str)
  deriving DecidableEq, Repr

inductive Cause where
  | errNotFound
  | errNotRepository
  | errIncompleteOrder
  | errInvalidScope
  | errPathRequired
  | errOutsideRoot
  | errGitInternal
  | errUnbound
  | errNoManifest
  | errNotConfirmed
  | system (message : String)
  deriving DecidableEq, Repr

def Cause.text : Cause → String
  | errNotFound => "no such project"
  | errNotRepository => "not a git repository"
  | errIncompleteOrder => "the stored list holds projects the new order does not name"
  | errInvalidScope => "a scope path must be a relative path inside the repository"
  | errPathRequired => "a project path is required"
  | errOutsideRoot => "path escapes the project root"
  | errGitInternal => "path is inside .git"
  | errUnbound => "no kube context and namespace are bound"
  | errNoManifest => "no manifest path to act on"
  | errNotConfirmed => "this binding is protected: type the context name exactly to confirm"
  | system message => message

structure Failure where
  sentences : List (List Piece)
  cause : Cause
  deriving DecidableEq, Repr

/-- `fmt.Errorf(sentence + ": %w", …, cause)`. -/
def errorf (sentence : List Piece) (cause : Cause) : Failure := ⟨[sentence],cause⟩

def Failure.wrap (sentence : List Piece) (err : Failure) : Failure :=
  { err with sentences := sentence :: err.sentences }

abbrev Answer (α : Type) := Except Failure α

def wrapping {α : Type} (sentence : List Piece) : Answer α → Answer α
  | .ok a => .ok a
  | .error err => .error (err.wrap sentence)

theorem wrappingOk {α : Type} {sentence : List Piece} {x : Answer α} {a : α} :
    wrapping sentence x = .ok a ↔ x = .ok a := by
  cases x <;> simp [wrapping]

theorem bindOk {α β : Type} {x : Answer α} {f : α → Answer β} {b : β} :
    (x >>= f) = .ok b ↔ ∃ a, x = .ok a ∧ f a = .ok b := by
  cases x <;> simp [bind,Except.bind]

end M6t.Fault
