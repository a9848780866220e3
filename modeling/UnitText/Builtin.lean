import UnitText.Namespace

/-!
The units that every reader of unit text knows, and the namespace that binds
them.

Most units are bound under their abbreviation.  A unit whose abbreviation is no
identifier, such as the percent sign, is bound under a spelled-out name only.
The usual prefixed units are bound as well; they are not bare, so none of them
stands for its unit.
-/

namespace UnitText.Builtin

def meter : BaseUnit := ⟨"Meter", "m"⟩
def second : BaseUnit := ⟨"Second", "s"⟩
def gram : BaseUnit := ⟨"Gram", "g"⟩
def ampere : BaseUnit := ⟨"Ampere", "A"⟩
def kelvin : BaseUnit := ⟨"Kelvin", "K"⟩
def mole : BaseUnit := ⟨"Mole", "mol"⟩
def candela : BaseUnit := ⟨"Candela", "cd"⟩
def hertz : BaseUnit := ⟨"Hertz", "Hz"⟩
def newton : BaseUnit := ⟨"Newton", "N"⟩
def pascal : BaseUnit := ⟨"Pascal", "Pa"⟩
def joule : BaseUnit := ⟨"Joule", "J"⟩
def watt : BaseUnit := ⟨"Watt", "W"⟩
def coulomb : BaseUnit := ⟨"Coulomb", "C"⟩
def volt : BaseUnit := ⟨"Volt", "V"⟩
def ohm : BaseUnit := ⟨"Ohm", "Ω"⟩
def radian : BaseUnit := ⟨"Radian", "rad"⟩
def liter : BaseUnit := ⟨"Liter", "L"⟩
def minute : BaseUnit := ⟨"Minute", "minute"⟩
def hour : BaseUnit := ⟨"Hour", "hr"⟩
def degree : BaseUnit := ⟨"Degree", "°"⟩
def angstrom : BaseUnit := ⟨"Angstrom", "Å"⟩
def percent : BaseUnit := ⟨"Percent", "%"⟩

def decibel : LogUnit := ⟨"Decibel", "dB"⟩
def bel : LogUnit := ⟨"Bel", "B"⟩
def neper : LogUnit := ⟨"Neper", "Np"⟩
def decibelMilliwatt : LogUnit := ⟨"DecibelMilliwatt", "dBm"⟩
def decibelVolt : LogUnit := ⟨"DecibelVolt", "dBV"⟩
def decibelWatt : LogUnit := ⟨"DecibelWatt", "dBW"⟩

/-- The units that are bound under their own abbreviation. -/
def abbreviated : List BaseUnit :=
  [meter, second, gram, ampere, kelvin, mole, candela, hertz, newton,
   pascal, joule, watt, coulomb, volt, ohm, radian, liter, minute, hour,
   degree, angstrom]

/-- All units of this module. -/
def units : List BaseUnit :=
  abbreviated ++ [percent]

/-- All logarithmic units of this module. -/
def logUnits : List LogUnit :=
  [decibel, bel, neper, decibelMilliwatt, decibelVolt, decibelWatt]

/-- Bindings of prefixed units and of spelled-out names. -/
def spelled : List (String × Prefix × BaseUnit) :=
  [("km", .kilo, meter), ("cm", .centi, meter), ("mm", .milli, meter),
   ("kg", .kilo, gram), ("ms", .milli, second), ("μs", .micro, second),
   ("kHz", .kilo, hertz), ("kW", .kilo, watt), ("percent", .none, percent),
   ("deg", .none, degree), ("angstrom", .none, angstrom)]

/-- Identifiers that are bound to something else than a unit. -/
def constants : List String :=
  ["c0", "ħ"]

/-- The namespace of the built-in units. -/
def scope : Namespace :=
  (Namespace.empty ⟨0⟩ "builtin").bindAll <|
    abbreviated.map (fun u => (u.abbreviation, .unit (.ofUnit u)))
      ++ spelled.map (fun (identifier, scale, u) => (identifier, .unit (.ofUnit u scale)))
      ++ constants.map (fun identifier => (identifier, .other))
      ++ logUnits.map (fun u => (u.abbreviation, .log u))

example : scope.size = 40 := by
  decide +kernel

/-- Every unit but one is found under its abbreviation. -/
example : units.filter (fun u => !scope.bindsBare u.abbreviation u) = [percent] := by
  decide +kernel

end UnitText.Builtin
