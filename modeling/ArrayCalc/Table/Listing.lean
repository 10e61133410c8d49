import ArrayCalc.Table

/-! The listing of a table: one line for each scalar, then one for each array, in table order. -/
namespace ArrayCalc

def Scalar.line (s : Scalar) : String := s.name ++ "=" ++ toString s.value

def ArrayVariable.line (a : ArrayVariable) : String :=
  a.name ++ "=[" ++ ", ".intercalate (a.values.toList.map toString) ++ "]"

def Table.listing (t : Table) : List String :=
  t.scalars.map Scalar.line ++ t.arrays.map ArrayVariable.line

end ArrayCalc
