/-! Boolean conditions over feature and target symbols, which select branches of a source. -/
namespace ShaderDialect

inductive Condition
  | literal (value : Bool)
  | symbol (name : String)
  | not (c : Condition)
  | and (a b : Condition)
  | or (a b : Condition)
  deriving Repr, DecidableEq, Inhabited

/-- The value of a condition when exactly the given symbols are defined. -/
def Condition.eval (defined : String → Bool) : Condition → Bool
  | literal value => value
  | symbol name => defined name
  | not c => !c.eval defined
  | and a b => a.eval defined && b.eval defined
  | or a b => a.eval defined || b.eval defined

end ShaderDialect
