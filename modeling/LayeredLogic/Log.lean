import LayeredLogic.Assembly.Assemble

/-!
# The log of a reading

The steps of reading a formula, in the order in which they happen.  A rule or
token is logged when a handler for it has been found, which is before that
handler runs, so a failing one is logged last.
-/

namespace LayeredLogic

inductive Stage where
  | grammar
  | assembly
  | reading
  deriving DecidableEq, Repr

inductive Severity where
  | debug
  | trace
  deriving DecidableEq, Repr

def Severity.label : Severity → String
  | debug => "DEBUG"
  | trace => "TRACE"

inductive Event where
  | parsing (bytes : Nat) (layer : Layer)
  | tokenResolved (kind : String) (layer : Layer)
  | ruleResolved (rule : String) (layer : Layer) (parts : Nat)
  | parsed (layer : Layer) (treeSize formulaSize : Nat)
  deriving DecidableEq, Repr

namespace Event

def stage : Event → Stage
  | parsing _ _ => .grammar
  | tokenResolved _ _ | ruleResolved _ _ _ => .assembly
  | parsed _ _ _ => .reading

def severity (e : Event) : Severity :=
  match e.stage with
  | .grammar | .reading => .debug
  | .assembly => .trace

def message : Event → String
  | parsing bytes layer =>
      "parsing " ++ toString bytes ++ " bytes with the `" ++ layer.name ++
        "` grammar"
  | tokenResolved kind layer =>
      "token `" ++ kind ++ "` resolved by the `" ++ layer.name ++ "` table"
  | ruleResolved rule layer parts =>
      "rule `" ++ rule ++ "` resolved by the `" ++ layer.name ++ "` table (" ++
        toString parts ++ " children)"
  | parsed layer treeSize formulaSize =>
      "parsed a `" ++ layer.name ++ "` formula: " ++ toString treeSize ++
        " syntax nodes, " ++
        toString formulaSize ++ " expression nodes"

end Event

namespace RuleTable

def tokenEvents (table : RuleTable) (t : Token) : List Event :=
  match table.resolveToken t.kind with
  | some (layer, _) => [.tokenResolved t.kind layer]
  | none => []

def ruleEvents (table : RuleTable) (rule : String) (parts : Nat) : List Event :=
  match table.resolve rule with
  | some (layer, _) => [.ruleResolved rule layer parts]
  | none => []

mutual

def events (table : RuleTable) : Tree → List Event
  | .node rule parts _ =>
      partEvents table parts ++
        if (table.values parts).isOk then table.ruleEvents rule parts.length
          else []

/-- The resolutions made in the parts of a tree, up to the first part that
fails. -/
def partEvents (table : RuleTable) : List Part → List Event
  | [] => []
  | .tree t :: rest =>
      events table t ++ if (table.value t).isOk then partEvents table rest
        else []
  | .token t :: rest =>
      table.tokenEvents t ++ if (table.tokenValue t).isOk then
        partEvents table rest else []
  | .absent :: rest => partEvents table rest

end

end RuleTable

namespace Formula

def parseEvents (layer : Layer) (source : String) : List Event :=
  .parsing source.utf8ByteSize layer ::
    match Tree.parse layer source with
    | .error _ => []
    | .ok t =>
        let table := RuleTable.ofLayer layer
        table.events t ++
          match table.assemble t with
          | .ok f => [.parsed layer t.size f.size]
          | .error _ => []

def parseEventsIn (layerName source : String) : List Event :=
  match Layer.ofName? layerName with
  | some layer => parseEvents layer source
  | none => []

end Formula

end LayeredLogic
