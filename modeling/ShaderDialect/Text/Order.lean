/-! Names in the order of their characters. -/
namespace ShaderDialect.Text

def sortNames (names : List String) : List String :=
  names.mergeSort fun a b => decide (a ≤ b)

/-- Keeps the first of equal elements. -/
def distinct {α : Type} [DecidableEq α] : List α → List α
  | [] => []
  | a :: as => a :: (distinct as).filter (· ≠ a)

def nameSet (names : List String) : List String := sortNames (distinct names)

end ShaderDialect.Text
