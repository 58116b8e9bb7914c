import ViewUpkeep.Text.ClusterClass

/-!
Clusters: the stretches of a text that a reader takes for one character, such as a letter with its
accents, a Hangul syllable, a flag, or pictographs that are joined into one. A text is cut before
every character that does not join with what is before it, so the clusters put together are the text
again.
-/
namespace ViewUpkeep.Text

inductive PictographTail where
  | none
  /-- After a pictograph and characters that go with it. -/
  | begun
  /-- After the joiner that follows them. -/
  | joined
deriving DecidableEq, Repr

inductive ConjunctTail where
  | none
  | begun
  | linked
deriving DecidableEq, Repr

/-- What the end of a text says about whether the next character joins with it. -/
structure ClusterTail where
  last : ClusterClass
  pictograph : PictographTail
  conjunct : ConjunctTail
  /-- An odd number of letters of flags stands at the end. -/
  halfFlag : Bool
deriving DecidableEq, Repr

namespace PictographTail

def push (t : PictographTail) : ClusterClass → PictographTail
  | .pictograph => .begun
  | .extend | .linker | .nonJoiner => if t = .begun then .begun else .none
  | .joiner => if t = .begun then .joined else .none
  | _ => .none

end PictographTail

namespace ConjunctTail

def push (t : ConjunctTail) : ClusterClass → ConjunctTail
  | .consonant => .begun
  | .extend | .joiner => t
  | .linker => if t = .none then .none else .linked
  | _ => .none

end ConjunctTail

namespace ClusterTail

def start : ClusterTail := ⟨.control, .none, .none, false⟩

def push (t : ClusterTail) (c : ClusterClass) : ClusterTail :=
  ⟨c, t.pictograph.push c, t.conjunct.push c, c = .regional && !(t.last = .regional && t.halfFlag)⟩

def joins (t : ClusterTail) (c : ClusterClass) : Bool :=
  match t.last, c with
  | .carriageReturn, .lineFeed => true
  | .carriageReturn, _ | .lineFeed, _ | .control, _ => false
  | _, .carriageReturn | _, .lineFeed | _, .control => false
  | .leading, .leading | .leading, .vowel | .leading, .openSyllable | .leading, .closedSyllable =>
    true
  | .openSyllable, .vowel | .vowel, .vowel | .openSyllable, .trailing | .vowel, .trailing => true
  | .closedSyllable, .trailing | .trailing, .trailing => true
  | _, .extend | _, .linker | _, .nonJoiner | _, .joiner | _, .spacing => true
  | .prepended, _ => true
  | _, .consonant => t.conjunct = .linked
  | _, .pictograph => t.pictograph = .joined
  | .regional, .regional => t.halfFlag
  | _, _ => false

end ClusterTail

/-- The clusters of a text; the second argument says what is before it, and the third is the cluster
being read, backwards. -/
def clustersFrom : List Char → ClusterTail → List Char → List (List Char)
  | [], _, cluster => [cluster.reverse]
  | c :: cs, t, cluster =>
    let k := ClusterClass.ofChar c
    if t.joins k then clustersFrom cs (t.push k) (c :: cluster)
    else cluster.reverse :: clustersFrom cs (t.push k) [c]

def clusters : List Char → List (List Char)
  | [] => []
  | c :: cs => clustersFrom cs (ClusterTail.start.push (.ofChar c)) [c]

theorem flatten_clustersFrom (cs : List Char) (t : ClusterTail) (cluster : List Char) :
    (clustersFrom cs t cluster).flatten = cluster.reverse ++ cs := by
  induction cs generalizing t cluster with
  | nil => simp [clustersFrom]
  | cons c cs ih =>
    simp only [clustersFrom]
    split <;> simp [ih]

@[simp] theorem flatten_clusters (cs : List Char) : (clusters cs).flatten = cs := by
  cases cs with
  | nil => rfl
  | cons c cs => simp [clusters, flatten_clustersFrom]

end ViewUpkeep.Text
