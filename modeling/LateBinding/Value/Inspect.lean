import LateBinding.Decimal.Notation
import LateBinding.Text.Address
import LateBinding.Text.Quoted
import LateBinding.Value

namespace LateBinding

/-- The text of a value in diagnostics. -/
def Value.inspect : Value → String
  | .nil => "nil"
  | .bool b => if b then "true" else "false"
  | .integer i => toString i.toInt
  | .float x => x.text
  | .symbol s => ":" ++ s.text
  | .text t => Text.quoted t.text
  | .module id => s!"#<Module {id.index}>"
  | .object o =>
    s!"#<Object class={o.declaredClass.index}" ++ String.ofList (Text.address o.serial) ++ ">"
  | .foreign f => "#<Foreign " ++ f.typeName ++ ">"

end LateBinding
