import UnitText.Grouping
import UnitText.Resolver
import UnitText.Writing.Number

/-!
The text of unit expressions.

Atoms with positive exponents come first and atoms with negative exponents
after them, each group in the expression's own order.  If there is a positive
exponent and all exponents are whole, the negative ones are written as divisors
with their sign dropped, as in `m/s^2`.  Otherwise all factors are multiplied
and the exponents keep their signs, as in `m^(1/2)*s^-2`.
-/

namespace UnitText

/-- What joins a factor to the text before it. -/
inductive Joint where
  | start
  | times
  | over
deriving DecidableEq, Repr

def Joint.text : Joint → String
  | .start => ""
  | .times => "*"
  | .over => "/"

/-- What is written of an exponent. -/
inductive Power where
  /-- The exponent one is left out. -/
  | omitted
  | whole (n : Int)
  /-- A fraction that plain division of binary numbers gives exactly. -/
  | binary (n : Int) (d : Nat)
  /-- A fraction that needs the exact quotient of whole numbers. -/
  | exact (n : Int) (d : Nat)
deriving DecidableEq, Repr

namespace Power

def text : Power → String
  | omitted => ""
  | whole n => "^" ++ intText n
  | binary n d => "^(" ++ intText n ++ "/" ++ toString d ++ ")"
  | exact n d => "^(" ++ intText n ++ "//" ++ toString d ++ ")"

/-- A whole power, left out if it is one. -/
def ofInt (n : Int) : Power :=
  if n = 1 then omitted else whole n

/-- The power of a factor.  A fraction in lowest terms has a finite binary
expansion just if its denominator is a power of two. -/
def ofExponent (q : Exponent) : Power :=
  if q.isInteger then ofInt q.num
  else if q.den = Nat.pow 2 q.den.log2 then binary q.num q.den
  else exact q.num q.den

/-- The power of a divisor, whose exponent is whole and negative. -/
def ofDivisor (q : Exponent) : Power :=
  ofInt q.num.natAbs

end Power

/-- A factor of a unit text, its unit not yet named. -/
structure Factor where
  joint : Joint
  scale : Prefix
  unit : BaseUnit
  power : Power
deriving DecidableEq, Repr

/-- The text of a factor whose unit has the given identifier. -/
def Factor.text (f : Factor) (identifier : String) : String :=
  f.joint.text ++ f.scale.symbol ++ identifier ++ f.power.text

namespace UnitExpr

/-- The atoms in the order in which they are written. -/
def ordered (e : UnitExpr) : List Atom :=
  let (negative, positive) := e.atoms.partition fun a => a.exponent.isNegative
  positive ++ negative

/-- Whether negative exponents are written as divisors. -/
def usesDivision (e : UnitExpr) : Bool :=
  e.atoms.any (fun a => !a.exponent.isNegative) && e.atoms.all fun a => a.exponent.isInteger

/-- An atom as a factor that follows others. -/
def followingFactor (division : Bool) (a : Atom) : Factor :=
  if division && a.exponent.isNegative then ⟨.over, a.scale, a.unit, .ofDivisor a.exponent⟩
  else ⟨.times, a.scale, a.unit, .ofExponent a.exponent⟩

/-- The factors of the text of an expression. -/
def factors (e : UnitExpr) : List Factor :=
  match e.ordered.map (followingFactor e.usesDivision) with
  | [] => []
  | f :: rest => { f with joint := .start } :: rest

/-- The text of an expression; that of the dimensionless unit is empty. -/
def write (c : Context) (e : UnitExpr) : Lookup String := do
  let parts ← e.factors.mapM fun f => do
    let name ← Resolver.resolveUnit c f.unit
    pure (f.text name.identifier)
  pure (String.join parts)

end UnitExpr

/-- Unit text as a literal that delimits itself. -/
def quoteUnit (units : String) : String :=
  "u\"" ++ units ++ "\""

/-- Unit text as the options ask for; an empty text is never quoted. -/
def Options.unitText (o : Options) (units : String) : String :=
  if o.literal && !units.isEmpty then quoteUnit units else units

end UnitText
