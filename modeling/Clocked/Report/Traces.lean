/-
Clocked.Report.Traces — traces as they are printed.

A run is printed as one line per trace, inputs before outputs.
-/
import Clocked.Trace

namespace Clocked.Report

/-- One line per trace: inputs, then outputs. -/
def traces (inputs outputs : List Trace) : String :=
  "\n".intercalate ((inputs ++ outputs).map Trace.text)

end Clocked.Report
