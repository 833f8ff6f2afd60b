import ShaderDialect.Program.Cursor

/-! Conditional directives, which are read alike among items, members and fragments. -/
namespace ShaderDialect.Reader

def opensConditional (name : String) : Bool := name == "if" || name == "ifdef" || name == "ifndef"

def endsBranch (name : String) : Bool := name == "else" || name == "elif" || name == "endif"

def condition (directive operand : String) (loc : Loc) : Reader Condition :=
  match Condition.read directive operand with
  | .ok c => pure c
  | .error e => fail loc (.condition e)

/-- The directive that closes the block that was opened at a place. -/
def expectDirective (name : String) (opened : Loc) : Reader Unit := do
  match ← next? with
  | none => fail opened (.missingDirective name)
  | some ⟨.directive found _, loc⟩ =>
    if found = name then pure () else fail loc (.expectedDirective name opened.line)
  | some t => fail t.loc (.expectedDirective name opened.line)

/-- The condition and the two branches of a conditional whose opening directive has been read. A
branch reader stops before the directive that ends the branch; it may carry a state `σ` along. An
`#elif` is a conditional in the second branch, which is read as `again` says. -/
def conditionalRound {α σ : Type} (branch : σ → Reader (List α × σ))
    (wrap : Condition → List α → List α → Loc → α)
    (again : (directive operand : String) → Loc → σ → Reader (Condition × List α × List α × σ))
    (directive operand : String) (loc : Loc) (s : σ) :
    Reader (Condition × List α × List α × σ) := do
  let cond ← condition directive operand loc
  let (yes, s) ← branch s
  match ← next? with
  | none => fail loc (.unclosedConditional directive)
  | some ⟨.directive "endif" _, _⟩ => return (cond, yes, [], s)
  | some ⟨.directive "else" _, _⟩ => do
    let (no, s) ← branch s
    expectDirective "endif" loc
    return (cond, yes, no, s)
  | some ⟨.directive "elif" operand, elseLoc⟩ => do
    let (c, y, n, s) ← again "if" operand elseLoc s
    return (cond, yes, [wrap c y n elseLoc], s)
  | some ⟨.directive found _, elseLoc⟩ => fail elseLoc (.strayBranch found directive)
  | some t => fail t.loc (.unclosedConditionalAt directive loc.line)

def conditional {α σ : Type} (branch : σ → Reader (List α × σ))
    (wrap : Condition → List α → List α → Loc → α) :
    (fuel : Nat) → (directive operand : String) → Loc → σ →
      Reader (Condition × List α × List α × σ)
  | 0, _, _, _, _ => exhausted
  | fuel + 1, directive, operand, loc, s =>
    conditionalRound branch wrap (conditional branch wrap fuel) directive operand loc s

end ShaderDialect.Reader
