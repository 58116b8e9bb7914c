import ViewUpkeep.Program

/-! A description of a compiled query for people. -/
namespace ViewUpkeep

namespace CompiledQuery

def explain (q : CompiledQuery) : String :=
  let s := q.settings
  let head := "query " ++ q.name ++ " [impl = " ++ s.mode.print ++ ", selfjoin = " ++
    s.selfJoin.print ++ ", rc = " ++ s.counting.print ++ ", filters = " ++ printSwitch s.filters ++
    ", instrument = " ++ printSwitch s.instrument ++ "]"
  let lines := [head, "  spec: " ++ q.spec.print] ++
    (q.maintained.toList.map fun m => "  maintained: " ++ m.print) ++
    (q.result.toList.map fun r =>
      "  result: " ++ r ++ " (" ++ (if q.counted then "counted" else "plain") ++ ", arity " ++
        toString q.arity ++ ")") ++
    (q.demandSet.toList.map fun u => "  demand set: " ++ u) ++
    (q.supports.map fun s => "  " ++ s.print)
  String.join (lines.map (· ++ "\n")) ++ String.join (q.handlers.map Handler.print)

end CompiledQuery

def Program.explain (p : Program) (name : String) : Option String :=
  (p.query? name).map CompiledQuery.explain

end ViewUpkeep
