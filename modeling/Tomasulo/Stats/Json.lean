import Tomasulo.Json.Value
import Tomasulo.Stats

/-!
# Stats/Json — statistics as JSON
-/

namespace Tomasulo.Stats

open Json

/-- **Statistics as an object.** -/
def toJson (s : Stats) : Value :=
  .object
    [("cycles", .nat s.cycles),
     ("instructions", .nat s.instructions),
     ("traps", .nat s.traps),
     ("inst_load", .nat s.loads),
     ("inst_store", .nat s.stores),
     ("inst_int", .nat s.ints),
     ("inst_fp", .nat s.fps),
     ("inst_branch", .nat s.branches),
     ("wait_dispatch", .nat s.queueWait),
     ("wait_issue", .nat s.stationWait),
     ("wait_cdb", .nat s.busWait),
     ("executed", .nat s.started),
     ("broadcast", .nat s.broadcast)]

end Tomasulo.Stats
