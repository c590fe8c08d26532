import TransitChanges.Changes
import TransitChanges.Fault

/-!
# Ways to change

The ways to get from one route to another are written as a tree over the stations where one changes:
one station, a choice of stations, two parts that are both needed, or alternatives of which one is
enough.  A tree stands for a set of *chains*, each a list of stations where one changes in turn.

Whether one can get there now depends on which stations operate.  The tree is asked from left to
right and no further than needed (`isOpen`); `askOpen` is the same question where asking a station
has an effect, such as remembering the answer.

* `isOpen_both`, `isOpen_any`, `isOpen_ofStations`: how the parts of a tree decide.
-/

namespace TransitChanges

/-- The ways to change from one route to another, over stations of some type. -/
inductive Ways (Station : Type) where
  /-- There is no way. -/
  | noWay
  /-- One changes at a station. -/
  | single (station : Station)
  /-- One changes at any of some stations. -/
  | choice (stations : List Station)
  /-- One goes the first way and then the second. -/
  | both (first second : Ways Station)
  /-- One goes any of some ways. -/
  | any (ways : List (Ways Station))

namespace Ways

variable {Station : Type}

/-! ## Making trees -/

/-- The ways to change at the stations of a list. -/
def ofStations : List Station → Ways Station
  | [] => noWay
  | [station] => single station
  | stations => choice stations

/-- The choice between the stations of a list, of which there have to be two. -/
def choiceOf (stations : List Station) : Except Fault (Ways Station) :=
  if 2 ≤ stations.length then .ok (choice stations) else .error (.tooFewStations stations.length)

/-- Whether a tree is the one that says there is no way. -/
def isNoWay : Ways Station → Bool
  | noWay => true
  | _ => false

/-- Alternatives, without those that are no way. -/
def ofWays (ways : List (Ways Station)) : Ways Station :=
  match ways.filter fun w => !w.isNoWay with
  | [] => noWay
  | ways => any ways

/-! ## What a tree says -/

mutual

/-- The chains of stations that a tree stands for. -/
def chains : Ways Station → List (List Station)
  | noWay => []
  | single station => [[station]]
  | choice stations => stations.map fun station => [station]
  | both first second =>
    (chains first).flatMap fun c => (chains second).map fun d => c ++ d
  | any ways => chainsOfAny ways

/-- The chains of alternatives. -/
def chainsOfAny : List (Ways Station) → List (List Station)
  | [] => []
  | w :: ways => chains w ++ chainsOfAny ways

end

mutual

/-- Whether one can get there if the stations that pass a test operate. -/
def isOpen (operates : Station → Bool) : Ways Station → Bool
  | noWay => false
  | single station => operates station
  | choice stations => stations.any operates
  | both first second => isOpen operates first && isOpen operates second
  | any ways => isAnyOpen operates ways

/-- Whether one can get there by one of some ways. -/
def isAnyOpen (operates : Station → Bool) : List (Ways Station) → Bool
  | [] => false
  | w :: ways => isOpen operates w || isAnyOpen operates ways

end

/-- Ask stations one after the other until one operates. -/
def askStations {m : Type → Type} [Monad m] (operates : Station → m Bool) :
    List Station → m Bool
  | [] => return false
  | station :: stations => do
    if ← operates station then return true else askStations operates stations

mutual

/-- Whether one can get there, where asking a station has an effect.  Stations are asked from left
to right, and none once the answer is known. -/
def askOpen {m : Type → Type} [Monad m] (operates : Station → m Bool) : Ways Station → m Bool
  | noWay => return false
  | single station => operates station
  | choice stations => askStations operates stations
  | both first second => do
    if ← askOpen operates first then askOpen operates second else return false
  | any ways => askAnyOpen operates ways

/-- Whether one can get there by one of some ways, where asking a station has an effect. -/
def askAnyOpen {m : Type → Type} [Monad m] (operates : Station → m Bool) :
    List (Ways Station) → m Bool
  | [] => return false
  | w :: ways => do
    if ← askOpen operates w then return true else askAnyOpen operates ways

end

/-- Whether one can get there, and the stations that were asked, in order. -/
def asked (operates : Station → Bool) (w : Ways Station) : Bool × List Station :=
  let ask (station : Station) : StateM (List Station) Bool :=
    fun asked => (operates station, asked ++ [station])
  (w.askOpen ask).run []

mutual

/-- The number of changes of a tree, of alternatives the largest.  There is none if nothing leads
there, or if some alternative has none. -/
def depth : Ways Station → Changes
  | noWay => .unreachable
  | single _ => .exactly 1
  | choice _ => .exactly 1
  | both first second => (depth first).add (depth second)
  | any [] => .unreachable
  | any (w :: ways) => deepest (depth w) ways

/-- The larger of a number of changes and those of alternatives. -/
def deepest (most : Changes) : List (Ways Station) → Changes
  | [] => most
  | w :: ways => deepest (most.more (depth w)) ways

end

/-- The number of alternatives at the root of a tree. -/
def alternatives : Ways Station → Nat
  | noWay => 0
  | single _ => 1
  | choice stations => stations.length
  | both _ _ => 1
  | any ways => ways.length

mutual

/-- The tree with every station replaced. -/
def map {Other : Type} (f : Station → Other) : Ways Station → Ways Other
  | noWay => noWay
  | single station => single (f station)
  | choice stations => choice (stations.map f)
  | both first second => both (map f first) (map f second)
  | any ways => any (mapAll f ways)

/-- The trees with every station replaced. -/
def mapAll {Other : Type} (f : Station → Other) : List (Ways Station) → List (Ways Other)
  | [] => []
  | w :: ways => map f w :: mapAll f ways

end

/-! ## Laws -/

theorem isOpen_both (operates : Station → Bool) (v w : Ways Station) :
    (both v w).isOpen operates = (v.isOpen operates && w.isOpen operates) := by
  rw [isOpen]

theorem isAnyOpen_eq_any (operates : Station → Bool) (ways : List (Ways Station)) :
    isAnyOpen operates ways = ways.any (isOpen operates) := by
  induction ways with
  | nil => rw [isAnyOpen, List.any_nil]
  | cons w ways ih => rw [isAnyOpen, List.any_cons, ih]

theorem isOpen_any (operates : Station → Bool) (ways : List (Ways Station)) :
    (any ways).isOpen operates = ways.any (isOpen operates) := by
  rw [isOpen, isAnyOpen_eq_any]

theorem isOpen_ofStations (operates : Station → Bool) (stations : List Station) :
    (ofStations stations).isOpen operates = stations.any operates := by
  unfold ofStations
  split <;> simp [isOpen]

end Ways

/-! ## Text -/

mutual

/-- How a tree over named stations is shown. -/
def Ways.inspect : Ways StationId → String
  | .noWay => "ZeroPaths"
  | .single station => "Single(" ++ station.text ++ ")"
  | .choice stations =>
    "AnyOfInterchanges([" ++ String.intercalate ", " (stations.map Name.inspect) ++ "])"
  | .both first second => "BothOf(" ++ first.inspect ++ ", " ++ second.inspect ++ ")"
  | .any ways => "AnyOf([" ++ String.intercalate ", " (Ways.inspectAll ways) ++ "])"

/-- How trees over named stations are shown. -/
def Ways.inspectAll : List (Ways StationId) → List String
  | [] => []
  | w :: ways => w.inspect :: Ways.inspectAll ways

end

mutual

/-- Whether two trees over named stations are the same tree. -/
def Ways.same : Ways StationId → Ways StationId → Bool
  | .noWay, .noWay => true
  | .single a, .single b => a = b
  | .choice as, .choice bs => as = bs
  | .both v w, .both x y => v.same x && w.same y
  | .any ws, .any xs => Ways.sameAll ws xs
  | _, _ => false

/-- Whether two lists of trees over named stations are the same. -/
def Ways.sameAll : List (Ways StationId) → List (Ways StationId) → Bool
  | [], [] => true
  | w :: ws, x :: xs => w.same x && Ways.sameAll ws xs
  | _, _ => false

end

end TransitChanges
