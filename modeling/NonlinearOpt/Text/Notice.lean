
namespace NonlinearOpt

inductive Severity where
  | debug
  | info
  | warn
  deriving DecidableEq, Repr

namespace Severity

def name : Severity → String
  | debug => "DEBUG"
  | info => "INFO"
  | warn => "WARN"

end Severity

structure Notice where
  severity : Severity
  text : String
  deriving DecidableEq, Repr

end NonlinearOpt
