import Rugo.Reached

/- A map of one shard whose table is one that `Comes` says. The run to it is a run of the map,
   so what reads, evicts from or sweeps the table at its end is what a call on the map does. -/
namespace Rugo
open Exec Runs

namespace Map
variable {t t' : Table}

end Map
end Rugo
