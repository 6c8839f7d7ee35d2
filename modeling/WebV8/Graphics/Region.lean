import WebV8.Graphics.IntRect

/-!
# `Region`

`platform/graphics/Region.{h,cpp}`: a set of pixels kept as *spans* of *segments*. A span says
that from its `y` on, until the `y` of the next span, every pixel row has the same segments; the
segments are a flat vector of `x` coordinates shared by all spans, each span remembering the
index at which its own begin.

A span iterator of the C++ code is modelled by the spans that are left, so `span->y` is the head
and `span + 1 == end` is a one-element list. A segment iterator is an index into the segment
vector, `none` for the null pointer that `segments_begin` and `segments_end` hand out.
-/

namespace WebV8

structure Span where
  y : Int
  segmentIndex : Nat
  deriving DecidableEq, Repr

structure Shape where
  segments : List Int
  spans : List Span
  deriving DecidableEq, Repr

variable (s : Shape)

namespace Shape

abbrev SpanIterator := List Span

/-! ## Building and reading a shape -/

/-- `Shape()`. -/
def empty : Shape := ⟨[], []⟩

def isEmpty (s : Shape) : Bool := s.spans.isEmpty

def isRect : Bool := s.spans.length ≤ 2 && s.segments.length ≤ 2

def appendSegment (x : Int) : Shape := { s with segments := s.segments ++ [x] }

/-- `appendSpan(int y)`. -/
def appendSpan (y : Int) : Shape :=
  { s with spans := s.spans ++ [⟨y, s.segments.length⟩] }

/-- `Shape(const IntRect&)`. -/
def ofRect (r : IntRect) : Shape :=
  ((((empty.appendSpan r.y).appendSegment r.x).appendSegment r.maxX).appendSpan r.maxY)

/-- The segments `[begin, end)` are those of the last span of the shape. -/
def canCoalesce (segs : List Int) : Bool :=
  match s.spans.getLast? with
  | none => false
  | some last => s.segments.drop last.segmentIndex = segs

/-- `appendSpan(int y, SegmentIterator begin, SegmentIterator end)`. -/
def appendSpanSegments (y : Int) (segs : List Int) : Shape :=
  if s.canCoalesce segs then s
  else
    let s := s.appendSpan y
    { s with segments := s.segments ++ segs }

def segmentsBegin : SpanIterator → Option Nat
  | [] => none
  | span :: _ => if span.segmentIndex = s.segments.length then none else some span.segmentIndex

/-- The last span of a shape has no segments, so `it + 1` is only read where it exists; the
    assertion in the code says so. -/
def segmentsEnd : SpanIterator → Option Nat
  | [] => none
  | [_] => none
  | span :: next :: _ =>
    if span.segmentIndex = s.segments.length then none else some next.segmentIndex

/-- The segments `[segments_begin(it), segments_end(it))`. -/
def segmentsOf (it : SpanIterator) : List Int :=
  match s.segmentsBegin it, s.segmentsEnd it with
  | some first, some last => (s.segments.drop first).take (last - first)
  | _, _ => []

/-- `appendSpans(const Shape&, SpanIterator begin, SpanIterator end)`. -/
def appendSpans (s shape : Shape) : SpanIterator → Shape
  | [] => s
  | span :: rest =>
    appendSpans (s.appendSpanSegments span.y (shape.segmentsOf (span :: rest))) shape rest

def translate (offset : IntSize) : Shape where
  segments := s.segments.map (· + offset.width)
  spans := s.spans.map fun span => { span with y := span.y + offset.height }

/-- The loop of `bounds()`; `none` when it dereferences a pointer outside the segment vector.
    `lastSegment` is one before `segments_end`, which for a span without segments in the middle
    of the shape is the last segment of an earlier span. -/
def boundsLoop (s : Shape) : SpanIterator → Int → Int → Option (Int × Int)
  | [], minX, maxX => some (minX, maxX)
  | [_], minX, maxX => some (minX, maxX)
  | span :: next :: rest, minX, maxX =>
    match s.segmentsBegin (span :: next :: rest), s.segmentsEnd (span :: next :: rest) with
    | some first, some last =>
      if last = 0 then none
      else
        match s.segments[first]?, s.segments[last - 1]? with
        | some firstSegment, some lastSegment =>
          boundsLoop s (next :: rest) (if firstSegment < minX then firstSegment else minX)
            (if lastSegment > maxX then lastSegment else maxX)
        | _, _ => none
    | _, _ => boundsLoop s (next :: rest) minX maxX

/-- `bounds()`; `none` when it reads outside the shape's own vectors. -/
def bounds : Option IntRect :=
  match s.spans.head?, s.spans.getLast? with
  | some first, some last =>
    match s.boundsLoop s.spans intMax intMin with
    | some (minX, maxX) =>
      some ⟨⟨minX, first.y⟩, ⟨maxX - minX, last.y - first.y⟩⟩
    | none => none
  | _, _ => some IntRect.empty

/-! ## Point membership -/

/-- The inner loop of `Region::contains(const IntPoint&)`. -/
def segmentsContain : List Int → Int → Bool
  | x :: maxX :: rest, px =>
    if x > px then false
    else if maxX > px then true
    else segmentsContain rest px
  | _, _ => false

/-- The outer loop of `Region::contains(const IntPoint&)`. -/
def containsLoop (s : Shape) (p : IntPoint) : SpanIterator → Bool
  | span :: next :: rest =>
    if span.y > p.y then false
    else if next.y ≤ p.y then containsLoop s p (next :: rest)
    else if segmentsContain (s.segmentsOf (span :: next :: rest)) p.x then true
    else containsLoop s p (next :: rest)
  | _ => false

def containsPoint (p : IntPoint) : Bool := s.containsLoop p s.spans

/-! ## Rectangles -/

/-- The inner loop of `Region::rects()`. -/
def segmentRects (y height : Int) : List Int → List IntRect
  | x :: maxX :: rest => ⟨⟨x, y⟩, ⟨maxX - x, height⟩⟩ :: segmentRects y height rest
  | _ => []

/-- The outer loop of `Region::rects()`. -/
def rectsLoop (s : Shape) : SpanIterator → List IntRect
  | span :: next :: rest =>
    segmentRects span.y (next.y - span.y) (s.segmentsOf (span :: next :: rest)) ++
      rectsLoop s (next :: rest)
  | _ => []

/-! ## `compareShapes` -/

/-- A compare operation: its default result and what each of its three hooks does. A hook that
    returns `true` has set the result to the given value, and the comparison stops there. -/
structure CompareOperation where
  defaultResult : Bool
  aOutsideB : Option Bool
  bOutsideA : Option Bool
  aOverlapsB : Option Bool

def CompareContainsOperation : CompareOperation := ⟨true, none, some false, none⟩

def CompareIntersectsOperation : CompareOperation := ⟨false, none, none, some true⟩

def hookIf (cond : Bool) (hook : Option Bool) : Option Bool := if cond then hook else none

/-- The loop over the segments of two overlapping spans and the two tests after it; `some r` when
    a hook ends the comparison with the result `r`. -/
def compareSegments (op : CompareOperation) : List Int → List Int → Option Bool
  | aX :: aMaxX :: as, bX :: bMaxX :: bs =>
    (hookIf (bMaxX > aX && bX < aMaxX) op.aOverlapsB).or <|
    (hookIf (aX < bX) op.aOutsideB).or <|
    (hookIf (bX < aX) op.bOutsideA).or <|
    if aMaxX < bMaxX then compareSegments op as (bX :: bMaxX :: bs)
    else if bMaxX < aMaxX then compareSegments op (aX :: aMaxX :: as) bs
    else compareSegments op as bs
  | as, bs => (hookIf (!as.isEmpty) op.aOutsideB).or (hookIf (!bs.isEmpty) op.bOutsideA)
  termination_by as bs => as.length + bs.length

def compareSpans (op : CompareOperation) (aShape bShape : Shape) :
    SpanIterator → SpanIterator → Bool → Bool → Bool
  | aSpan :: aNext :: as, bSpan :: bNext :: bs, aHadSegmentInPreviousSpan,
      bHadSegmentInPreviousSpan =>
    let aSegments := aShape.segmentsOf (aSpan :: aNext :: as)
    let bSegments := bShape.segmentsOf (bSpan :: bNext :: bs)
    let aHasSegmentInSpan := !aSegments.isEmpty
    let bHasSegmentInSpan := !bSegments.isEmpty
    let spansOverlap := bNext.y > aSpan.y && bSpan.y < aNext.y
    let stop :=
      (hookIf (aSpan.y < bSpan.y && !bHadSegmentInPreviousSpan && aHasSegmentInSpan)
        op.aOutsideB).or <|
      (hookIf (bSpan.y < aSpan.y && !aHadSegmentInPreviousSpan && bHasSegmentInSpan)
        op.bOutsideA).or <|
      if spansOverlap then compareSegments op aSegments bSegments else none
    match stop with
    | some result => result
    | none =>
      if aNext.y < bNext.y then
        compareSpans op aShape bShape (aNext :: as) (bSpan :: bNext :: bs) aHasSegmentInSpan
          bHasSegmentInSpan
      else if bNext.y < aNext.y then
        compareSpans op aShape bShape (aSpan :: aNext :: as) (bNext :: bs) aHasSegmentInSpan
          bHasSegmentInSpan
      else
        compareSpans op aShape bShape (aNext :: as) (bNext :: bs) aHasSegmentInSpan
          bHasSegmentInSpan
  | as, bs, _, _ =>
    ((hookIf (as.length ≥ 2) op.aOutsideB).or (hookIf (bs.length ≥ 2) op.bOutsideA)).getD
      op.defaultResult
  termination_by as bs => as.length + bs.length

def compareShapes (op : CompareOperation) (aShape bShape : Shape) : Bool :=
  compareSpans op aShape bShape aShape.spans bShape.spans false false

/-! ## `shapeOperation` -/

/-- The parameters of `shapeOperation`, one value for each of the three operations. -/
structure Operation where
  /-- `trySimpleOperation`: `some result` when it returns `true`. -/
  trySimpleOperation : Shape → Shape → Option Shape
  opCode : Nat
  shouldAddRemainingSegmentsFromSpan1 : Bool
  shouldAddRemainingSegmentsFromSpan2 : Bool
  shouldAddRemainingSpansFromShape1 : Bool
  shouldAddRemainingSpansFromShape2 : Bool

def UnionOperation : Operation where
  trySimpleOperation shape1 shape2 := if shape1.isEmpty then some shape2 else none
  opCode := 0
  shouldAddRemainingSegmentsFromSpan1 := true
  shouldAddRemainingSegmentsFromSpan2 := true
  shouldAddRemainingSpansFromShape1 := true
  shouldAddRemainingSpansFromShape2 := true

def IntersectOperation : Operation where
  trySimpleOperation _ _ := none
  opCode := 3
  shouldAddRemainingSegmentsFromSpan1 := false
  shouldAddRemainingSegmentsFromSpan2 := false
  shouldAddRemainingSpansFromShape1 := false
  shouldAddRemainingSpansFromShape2 := false

def SubtractOperation : Operation where
  trySimpleOperation _ _ := none
  opCode := 1
  shouldAddRemainingSegmentsFromSpan1 := true
  shouldAddRemainingSegmentsFromSpan2 := false
  shouldAddRemainingSpansFromShape1 := true
  shouldAddRemainingSpansFromShape2 := false

/-- The body of the segment loop after the iterators have moved: `x` is kept when the flag
    enters or leaves the operation's code. -/
def appendAtFlag (opCode flag oldFlag : Nat) (segments : List Int) (x : Int) : List Int :=
  if flag = opCode ∨ oldFlag = opCode then segments ++ [x] else segments

/-- The loop over the segments of the two current spans, followed by adding what remains. The
    three branches are `test < 0`, `test > 0` and `test == 0`. -/
def mergeSegments (op : Operation) : List Int → List Int → Nat → List Int → List Int
  | s1 :: segments1, s2 :: segments2, oldFlag, segments =>
    if s1 < s2 then
      let flag := oldFlag ^^^ 1
      mergeSegments op segments1 (s2 :: segments2) flag
        (appendAtFlag op.opCode flag oldFlag segments s1)
    else if s2 < s1 then
      let flag := oldFlag ^^^ 2
      mergeSegments op (s1 :: segments1) segments2 flag
        (appendAtFlag op.opCode flag oldFlag segments s2)
    else
      let flag := (oldFlag ^^^ 1) ^^^ 2
      mergeSegments op segments1 segments2 flag
        (appendAtFlag op.opCode flag oldFlag segments s2)
  | segments1, segments2, _, segments =>
    if op.shouldAddRemainingSegmentsFromSpan1 && !segments1.isEmpty then segments ++ segments1
    else if op.shouldAddRemainingSegmentsFromSpan2 && !segments2.isEmpty then
      segments ++ segments2
    else segments
  termination_by segments1 segments2 => segments1.length + segments2.length

/-- The end of one round of the span loop: build the segments at `y` and add the span, unless it
    would be an empty one at the top. -/
def addSpan (op : Operation) (result : Shape) (y : Int) (segments1 segments2 : List Int) :
    Shape :=
  let segments := mergeSegments op segments1 segments2 0 []
  if !segments.isEmpty || !result.isEmpty then result.appendSpanSegments y segments else result

/-- The loop over all spans, followed by adding the spans that remain. `segments1` and
    `segments2` are the segments of the spans last passed, empty before the first one. -/
def mergeSpans (op : Operation) (shape1 shape2 : Shape) :
    SpanIterator → SpanIterator → List Int → List Int → Shape → Shape
  | span1 :: spans1, span2 :: spans2, segments1, segments2, result =>
    if span1.y < span2.y then
      let segments1 := shape1.segmentsOf (span1 :: spans1)
      mergeSpans op shape1 shape2 spans1 (span2 :: spans2) segments1 segments2
        (addSpan op result span1.y segments1 segments2)
    else if span2.y < span1.y then
      let segments2 := shape2.segmentsOf (span2 :: spans2)
      mergeSpans op shape1 shape2 (span1 :: spans1) spans2 segments1 segments2
        (addSpan op result span2.y segments1 segments2)
    else
      let segments1 := shape1.segmentsOf (span1 :: spans1)
      let segments2 := shape2.segmentsOf (span2 :: spans2)
      mergeSpans op shape1 shape2 spans1 spans2 segments1 segments2
        (addSpan op result span2.y segments1 segments2)
  | spans1, spans2, _, _, result =>
    if op.shouldAddRemainingSpansFromShape1 && !spans1.isEmpty then
      result.appendSpans shape1 spans1
    else if op.shouldAddRemainingSpansFromShape2 && !spans2.isEmpty then
      result.appendSpans shape2 spans2
    else result
  termination_by spans1 spans2 => spans1.length + spans2.length

def shapeOperation (op : Operation) (shape1 shape2 : Shape) : Shape :=
  match op.trySimpleOperation shape1 shape2 with
  | some result => result
  | none => mergeSpans op shape1 shape2 shape1.spans shape2.spans [] [] empty

def unionShapes : Shape → Shape → Shape := shapeOperation UnionOperation

def intersectShapes : Shape → Shape → Shape := shapeOperation IntersectOperation

def subtractShapes : Shape → Shape → Shape := shapeOperation SubtractOperation

end Shape

/-! ## The region itself -/

structure Region where
  bounds : IntRect
  shape : Shape
  deriving DecidableEq, Repr

namespace Region

/-- `Region()`. -/
def empty : Region := ⟨IntRect.empty, Shape.empty⟩

/-- `Region(const IntRect&)`. -/
def ofRect (r : IntRect) : Region := ⟨r, Shape.ofRect r⟩

def isEmpty (r : Region) : Bool := r.bounds.isEmpty

def isRect (r : Region) : Bool := r.shape.isRect

/-- `contains(const IntPoint&)`. -/
def containsPoint (r : Region) (p : IntPoint) : Bool :=
  if !r.bounds.containsPoint p then false else r.shape.containsPoint p

def rects (r : Region) : List IntRect := r.shape.rectsLoop r.shape.spans

/-- The sum is an `unsigned`; adding an `int` product to it is adding it modulo `2 ^ 32`. -/
def totalArea (r : Region) : Nat :=
  r.rects.foldl (fun totalArea rect =>
    (totalArea + (rect.width * rect.height % 2 ^ 32).toNat) % 2 ^ 32) 0

/-- `contains(const Region&)`. -/
def contains (r region : Region) : Bool :=
  if !r.bounds.contains region.bounds then false
  else Shape.compareShapes Shape.CompareContainsOperation r.shape region.shape

/-- `intersects(const Region&)`. -/
def intersects (r region : Region) : Bool :=
  if !r.bounds.intersects region.bounds then false
  else Shape.compareShapes Shape.CompareIntersectsOperation r.shape region.shape

/-- `m_shape.swap(shape); m_bounds = m_shape.bounds()`; `none` when that reads out of bounds. -/
def setShape (shape : Shape) : Option Region :=
  match shape.bounds with
  | some bounds => some ⟨bounds, shape⟩
  | none => none

def intersect (r region : Region) : Option Region :=
  if r.bounds.isEmpty then some r
  else if !r.bounds.intersects region.bounds then some ⟨IntRect.empty, Shape.empty⟩
  else setShape (Shape.intersectShapes r.shape region.shape)

def unite (r region : Region) : Region :=
  if region.isEmpty then r
  else if r.isRect && r.bounds.contains region.bounds then r
  else if region.isRect && region.bounds.contains r.bounds then ⟨region.bounds, region.shape⟩
  else if !r.isRect && r.contains region then r
  else ⟨r.bounds.unite region.bounds, Shape.unionShapes r.shape region.shape⟩

def subtract (r region : Region) : Option Region :=
  if r.bounds.isEmpty then some r
  else if region.isEmpty then some r
  else if !r.bounds.intersects region.bounds then some r
  else setShape (Shape.subtractShapes r.shape region.shape)

def translate (r : Region) (offset : IntSize) : Region :=
  ⟨r.bounds.move offset, r.shape.translate offset⟩

/-- `operator==`: the bounds and the two vectors of the shapes are compared. -/
def equal (a b : Region) : Bool :=
  a.bounds = b.bounds && (a.shape.spans = b.shape.spans && a.shape.segments = b.shape.segments)

end Region

end WebV8
