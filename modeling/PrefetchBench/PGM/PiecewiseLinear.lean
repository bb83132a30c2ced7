import PrefetchBench.PGM.Failure

/-!
# The piecewise linear model of PGM-index

`OptimalPiecewiseLinearModel` takes points with increasing keys, one at a time, for as long as some
line passes within `epsilon` of all of them, and not below zero there.  It keeps the lines of the
extreme slopes as a `rectangle` of four points, and two hulls, of which only the part from
`lower_start` and from `upper_start` on is looked at.  `make_segmentation` feeds it the ranks of a
sequence of keys, and hands out a segment whenever a point is not taken.

`SX` and `SY` are 128 bit wide, and the differences of points and their products are integers here:
for ranks below `2^62` they fit (`cross_inRange`).  The library is compiled without OpenMP, so
`make_segmentation_par` is `make_segmentation`.
-/

namespace PGM

open Prog

variable {S : Type}

/-- `size_t` -/
abbrev Size := Fin (2 ^ 64)

/-! ## Points and slopes -/

/-- `Slope` -/
structure Slope where
  /-- The run. -/
  dx : Int
  /-- The rise. -/
  dy : Int
deriving DecidableEq

/-- `Slope::operator<` -/
def Slope.lt (s p : Slope) : Bool := decide (s.dy * p.dx < s.dx * p.dy)

/-- `Slope::operator>` -/
def Slope.gt (s p : Slope) : Bool := decide (s.dx * p.dy < s.dy * p.dx)

/-- `Point` -/
structure Point where
  /-- The key. -/
  x : Key
  /-- The rank. -/
  y : Size
deriving DecidableEq

/-- `Point::operator-` -/
def Point.sub (a p : Point) : Slope := ⟨a.x.val - p.x.val, a.y.val - p.y.val⟩

/-- `cross` -/
def cross (o a b : Point) : Int :=
  (a.sub o).dx * (b.sub o).dy - (a.sub o).dy * (b.sub o).dx

/-- `p1.y`: a rank plus `epsilon`, at most the largest value of the type. -/
def plusEpsilon (epsilon y : Size) : Size :=
  if Fin.last (2 ^ 64 - 1) - epsilon ≤ y then Fin.last (2 ^ 64 - 1) else y + epsilon

/-- `p2.y`: a rank minus `epsilon`, at least zero. -/
def minusEpsilon (epsilon y : Size) : Size :=
  if y ≤ 0 + epsilon then 0 else y - epsilon

/-! ## The model -/

/-- `Point rectangle[4]` -/
structure Rectangle where
  /-- `rectangle[0]` -/
  r0 : Point
  /-- `rectangle[1]` -/
  r1 : Point
  /-- `rectangle[2]` -/
  r2 : Point
  /-- `rectangle[3]` -/
  r3 : Point
deriving DecidableEq

/-- `OptimalPiecewiseLinearModel` -/
structure OptimalPiecewiseLinearModel where
  /-- The error that is allowed. -/
  epsilon : Size
  /-- The hull of the lower points. -/
  lower : List Point
  /-- The hull of the upper points. -/
  upper : List Point
  /-- The key of the first point. -/
  firstX : Key
  /-- The key of the last point. -/
  lastX : Key
  /-- Where the part of `lower` starts that is still needed. -/
  lowerStart : Nat
  /-- Where the part of `upper` starts that is still needed. -/
  upperStart : Nat
  /-- The number of points. -/
  pointsInHull : Nat
  /-- The points of the extreme lines. -/
  rectangle : Rectangle
deriving DecidableEq

namespace OptimalPiecewiseLinearModel

/-- The constructor. -/
def new (epsilon : Size) : OptimalPiecewiseLinearModel :=
  ⟨epsilon, [], [], 0, 0, 0, 0, 0, ⟨⟨0, 0⟩, ⟨0, 0⟩, ⟨0, 0⟩, ⟨0, 0⟩⟩⟩

/-- The state of the search for an extreme slope. -/
structure Extreme where
  /-- `min`, `max` -/
  best : Slope
  /-- `min_i`, `max_i` -/
  bestI : Nat
  /-- The loop variable. -/
  i : Nat

/-- The point of a hull that is seen from `p` at the extreme slope: the search ends where a slope is
`worse` than the one before it. -/
def extremeSlope (worse : Slope → Slope → Bool) (hull : List Point) (start : Nat) (p : Point) :
    Prog Nat := do
  let first ← read hull start
  loop (fun s : Extreme =>
    if s.i < hull.length then do
      let v ← read hull s.i
      let val := v.sub p
      if worse val s.best then pure (.inr s.bestI) else pure (.inl ⟨val, s.i, s.i + 1⟩)
    else pure (.inr s.bestI)) ⟨first.sub p, start, start + 1⟩

/-- Where a hull ends when `p` is added: the points at which it does not turn the right way go. -/
def hullEnd (pops : Int → Bool) (hull : List Point) (start : Nat) (p : Point) : Prog Nat :=
  loop (fun last =>
    if start + 2 ≤ last then do
      let a ← read hull (last - 2)
      let b ← read hull (last - 1)
      if pops (cross a b p) then pure (.inl (last - 1)) else pure (.inr last)
    else pure (.inr last)) hull.length

/-- `p1 - rectangle[1] < slope2`: the line of the largest slope gets a smaller one. -/
def turnDown (p1 : Point) (opt : OptimalPiecewiseLinearModel) :
    Prog OptimalPiecewiseLinearModel := do
  let minI ← extremeSlope Slope.gt opt.lower opt.lowerStart p1
  let low ← read opt.lower minI
  let last ← hullEnd (fun c => decide (c ≤ 0)) opt.upper opt.upperStart p1
  pure { opt with
    rectangle := { opt.rectangle with r1 := low, r3 := p1 }
    lowerStart := minI
    upper := opt.upper.take last ++ [p1] }

/-- `p2 - rectangle[0] > slope1`: the line of the smallest slope gets a larger one. -/
def turnUp (p2 : Point) (opt : OptimalPiecewiseLinearModel) :
    Prog OptimalPiecewiseLinearModel := do
  let maxI ← extremeSlope Slope.lt opt.upper opt.upperStart p2
  let high ← read opt.upper maxI
  let last ← hullEnd (fun c => decide (0 ≤ c)) opt.lower opt.lowerStart p2
  pure { opt with
    rectangle := { opt.rectangle with r0 := high, r2 := p2 }
    upperStart := maxI
    lower := opt.lower.take last ++ [p2] }

/-- A point between the two points `p1` above and `p2` below it, after two others. -/
def extend (p1 p2 : Point) (opt : OptimalPiecewiseLinearModel) :
    Prog (Bool × OptimalPiecewiseLinearModel) := do
  let slope1 := opt.rectangle.r2.sub opt.rectangle.r0
  let slope2 := opt.rectangle.r3.sub opt.rectangle.r1
  let outsideLine1 := (p1.sub opt.rectangle.r2).lt slope1
  let outsideLine2 := (p2.sub opt.rectangle.r3).gt slope2
  if outsideLine1 || outsideLine2 then pure (false, { opt with pointsInHull := 0 }) else do
    let opt ← (if (p1.sub opt.rectangle.r1).lt slope2 then turnDown p1 opt else pure opt)
    let opt ← (if (p2.sub opt.rectangle.r0).gt slope1 then turnUp p2 opt else pure opt)
    pure (true, { opt with pointsInHull := opt.pointsInHull + 1 })

/-- `add_point`, once the key is known to increase. -/
def place (x : Key) (y : Size) (opt : OptimalPiecewiseLinearModel) :
    Prog (Bool × OptimalPiecewiseLinearModel) :=
  let opt := { opt with lastX := x }
  let p1 : Point := ⟨x, plusEpsilon opt.epsilon y⟩
  let p2 : Point := ⟨x, minusEpsilon opt.epsilon y⟩
  if opt.pointsInHull = 0 then
    pure (true, { opt with
      firstX := x
      rectangle := { opt.rectangle with r0 := p1, r1 := p2 }
      upper := [p1]
      lower := [p2]
      upperStart := 0
      lowerStart := 0
      pointsInHull := opt.pointsInHull + 1 })
  else if opt.pointsInHull = 1 then
    pure (true, { opt with
      rectangle := { opt.rectangle with r2 := p2, r3 := p1 }
      upper := opt.upper ++ [p1]
      lower := opt.lower ++ [p2]
      pointsInHull := opt.pointsInHull + 1 })
  else extend p1 p2 opt

/-- `add_point` -/
def addPoint (x : Key) (y : Size) (opt : OptimalPiecewiseLinearModel) :
    Throwing Exception (Bool × OptimalPiecewiseLinearModel) :=
  if 0 < opt.pointsInHull ∧ x ≤ opt.lastX then throw notIncreasing
  else ExceptT.lift (place x y opt)

end OptimalPiecewiseLinearModel

/-! ## Segments -/

/-- `CanonicalSegment` -/
structure CanonicalSegment where
  /-- The points of the extreme lines. -/
  rectangle : Rectangle
  /-- The key of the first point. -/
  first : Key
deriving DecidableEq

/-- `get_segment` -/
def OptimalPiecewiseLinearModel.getSegment (opt : OptimalPiecewiseLinearModel) :
    CanonicalSegment :=
  if opt.pointsInHull = 1 then
    ⟨⟨opt.rectangle.r0, opt.rectangle.r1, opt.rectangle.r0, opt.rectangle.r1⟩, opt.firstX⟩
  else ⟨opt.rectangle, opt.firstX⟩

/-- `one_point` -/
def CanonicalSegment.onePoint (cs : CanonicalSegment) : Bool :=
  cs.rectangle.r0 == cs.rectangle.r2 && cs.rectangle.r1 == cs.rectangle.r3

/-- The arithmetic of `Floating`, with the conversion of a quotient. -/
structure Quotients (S : Type) extends Floating S where
  /-- `Floating(static_cast<long double>(slope))` -/
  ofSlope : Slope → S

/-- The integer division of the intercept, rounded to the nearest integer: the quotients are cut off
towards zero. -/
def roundedQuotient (n d : Int) : Int :=
  (n + ((if (n < 0) != (d < 0) then -1 else 1) * d).tdiv 2).tdiv d

/-- `get_floating_point_segment` -/
def CanonicalSegment.getFloatingPointSegment (f : Quotients S) (cs : CanonicalSegment)
    (origin : Key) : S × Int :=
  if cs.onePoint then
    (f.zero, ((cs.rectangle.r0.y + cs.rectangle.r1.y) / 2 : Size).val)
  else
    let slope := cs.rectangle.r3.sub cs.rectangle.r1
    let interceptN := slope.dy * (origin.val - cs.rectangle.r1.x.val)
    (f.ofSlope slope, roundedQuotient interceptN slope.dx + cs.rectangle.r1.y.val)

/-- The constructor of `Segment` from a canonical segment. -/
def Segment.ofCanonical (f : Quotients S) (cs : CanonicalSegment) :
    Throwing Exception (Segment S) :=
  let r := cs.getFloatingPointSegment f cs.first
  if 2 ^ 32 - 1 < r.2 then throw interceptOverflow
  else if r.2 < 0 then throw interceptNegative
  else pure ⟨cs.first, r.1, Fin.ofNat (2 ^ 32) r.2.toNat⟩

/-! ## Segmentation -/

/-- The state of `make_segmentation`: the model, the segments handed out, and their number. -/
structure Segmenting (S : Type) where
  /-- `opt` -/
  opt : OptimalPiecewiseLinearModel
  /-- What was given to `out`. -/
  out : List (Segment S)
  /-- `c` -/
  c : Nat

/-- `add_point` of `make_segmentation`. -/
def feed (f : Quotients S) (x : Key) (y : Size) (s : Segmenting S) :
    Throwing Exception (Segmenting S) := do
  let r ← s.opt.addPoint x y
  if r.1 then pure { s with opt := r.2 } else do
    let segment ← Segment.ofCanonical f r.2.getSegment
    let r ← r.2.addPoint x y
    pure ⟨r.2, s.out ++ [segment], s.c + 1⟩

/-- The body of the loop of `make_segmentation`. -/
def feedMiddle (f : Quotients S) (keys : List Key) (s : Segmenting S) (i : Nat) :
    Throwing Exception (Segmenting S) := do
  let key ← ExceptT.lift (read keys i)
  let before ← ExceptT.lift (read keys (i - 1))
  if key = before then do
    let next ← ExceptT.lift (read keys (i + 1))
    if key + 1 < next then feed f (key + 1) (Fin.ofNat (2 ^ 64) i) s else pure s
  else feed f key (Fin.ofNat (2 ^ 64) i) s

/-- What `make_segmentation` does for the last key of its range. -/
def feedLast (f : Quotients S) (keys : List Key) (start last : Nat) (s : Segmenting S) :
    Throwing Exception (Segmenting S) :=
  if start + 2 ≤ last then do
    let key ← ExceptT.lift (read keys (last - 1))
    let before ← ExceptT.lift (read keys (last - 2))
    if key ≠ before then feed f key (Fin.ofNat (2 ^ 64) (last - 1)) s else pure s
  else pure s

/-- Where the range ends with the keys, the keys behind the last one get the rank `n`. -/
def feedEnd (f : Quotients S) (keys : List Key) (n last : Nat) (s : Segmenting S) :
    Throwing Exception (Segmenting S) :=
  if last = n then do
    let key ← ExceptT.lift (read keys (n - 1))
    feed f (key + 1) (Fin.ofNat (2 ^ 64) n) s
  else pure s

/-- `make_segmentation(n, start, end, epsilon, in, out)` -/
def makeSegmentation (f : Quotients S) (n start last : Nat) (epsilon : Size) (keys : List Key) :
    Throwing Exception (Segmenting S) := do
  let key ← ExceptT.lift (read keys start)
  let s ← feed f key (Fin.ofNat (2 ^ 64) start) ⟨.new epsilon, [], 0⟩
  let s ← (List.range' (start + 1) (last - 1 - (start + 1))).foldlM (feedMiddle f keys) s
  let s ← feedLast f keys start last s
  let s ← feedEnd f keys n last s
  let segment ← Segment.ofCanonical f s.opt.getSegment
  pure ⟨s.opt, s.out ++ [segment], s.c + 1⟩

/-- `make_segmentation_par(n, epsilon, in, out)`, without OpenMP. -/
def makeSegmentationPar (f : Quotients S) (n : Nat) (epsilon : Size) (keys : List Key) :
    Throwing Exception (Segmenting S) := makeSegmentation f n 0 n epsilon keys

end PGM
