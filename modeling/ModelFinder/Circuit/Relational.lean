import ModelFinder.Circuit.Matrix

/-! The relational operators on symbolic relations. Cells are visited by ascending index, and every
cell of a result is built through the circuit, so that constants fold on the way. -/
namespace ModelFinder.Matrix

def sameDims (a b : Matrix) : Except Error Unit :=
  if a.dims = b.dims then .ok () else .error (.misuse .dimensionMismatch)

def isBinary (m : Matrix) : Except Error Unit :=
  if m.dims.arity = 2 then .ok () else .error (.misuse .notBinary)

def valueAt (cells : Std.HashMap Nat Value) (i : Nat) : Value := cells.getD i (.const false)

def anyOfGroups (terms : List (Nat × Value)) : Synth (List (Nat × Value)) :=
  let groups := groupByKey terms
  (Ascending.sort groups.keys).mapM fun key => do
    return (key, ← Circuit.any (groups.getD key []))

def union (a b : Matrix) : Build Matrix := do
  a.sameDims b
  let mine := a.cells.index
  let cells ← b.cells.entries.mapM fun (i, v) => do return (i, ← Circuit.or (valueAt mine i) v)
  return ofCells a.dims (a.cells.entries ++ cells)

def intersection (a b : Matrix) : Build Matrix := do
  a.sameDims b
  let theirs := b.cells.index
  let shared := a.cells.entries.filterMap fun (i, v) => theirs[i]?.map (i, v, ·)
  let cells ← shared.mapM fun (i, v, w) => do return (i, ← Circuit.and v w)
  return ofCells a.dims cells

def difference (a b : Matrix) : Build Matrix := do
  a.sameDims b
  let theirs := b.cells.index
  let cells ← a.cells.entries.mapM fun (i, v) => do
    return (i, ← Circuit.and v (valueAt theirs i).not)
  return ofCells a.dims cells

/-- Tuples of the second relation, and those of the first whose first atom begins no tuple of the
second. -/
def override (a b : Matrix) : Build Matrix := do
  a.sameDims b
  let row := a.dims.capacity / a.dims.size
  if a.dims.size = 0 ∨ (row = 0 ∧ ¬ (a.cells.entries.isEmpty ∧ b.cells.entries.isEmpty)) then
    throw (.misuse .noRows)
  let rows ← anyOfGroups (b.cells.entries.map fun (i, v) => (i / row, v))
  let shadows := Std.HashMap.ofList rows
  let theirs := b.cells.index
  let cells ← a.cells.entries.mapM fun (i, v) => do
    let kept ← Circuit.and v (valueAt shadows (i / row)).not
    return (i, ← Circuit.or kept (valueAt theirs i))
  return ofCells a.dims (b.cells.entries ++ cells)

/-- Tuples that arise where the last atom of a tuple of the first relation is the first atom of a
tuple of the second, with that atom left out. -/
def join (a b : Matrix) : Build Matrix := do
  let n := a.dims.size
  let dims ← Dims.make n (a.dims.arity + b.dims.arity - 2)
  if n = 0 then throw (.misuse .noRows)
  let rest := b.dims.capacity / n
  let rows := groupByKey
    (if rest = 0 then [] else b.cells.entries.map fun (j, w) => (j / rest, (j % rest, w)))
  let pairs := a.cells.entries.flatMap fun (i, v) =>
    (rows.getD (i % n) []).map fun (k, w) => (i / n * rest + k, v, w)
  let terms ← pairs.mapM fun (k, v, w) => do return (k, ← Circuit.and v w)
  return ofCells dims (← anyOfGroups terms)

def product (a b : Matrix) : Build Matrix := do
  let dims ← Dims.make a.dims.size (a.dims.arity + b.dims.arity)
  let stride := b.dims.capacity
  let pairs := a.cells.entries.flatMap fun (i, v) =>
    b.cells.entries.map fun (j, w) => (i * stride + j, v, w)
  let cells ← pairs.mapM fun (k, v, w) => do return (k, ← Circuit.and v w)
  return ofCells dims cells

def transpose (m : Matrix) : Except Error Matrix := do
  m.isBinary
  let n := m.dims.size
  return ofCells m.dims (m.cells.entries.map fun (i, v) => (i % n * n + i / n, v))

def rowCount (m : Matrix) : Nat := (m.cells.keys.map (· / m.dims.size)).eraseReps.length

/-- The number of squarings after which paths through `rows` inner points are covered: the least
`k` with `rows ≤ 2 ^ k`. -/
def squarings (rows : Nat) : Nat := if rows ≤ 1 then 0 else Nat.log2 (rows - 1) + 1

def square : (times : Nat) → Matrix → Build Matrix
  | 0, m => return m
  | times + 1, m => do square times (← m.union (← m.join m))

def closure (m : Matrix) : Build Matrix := do
  m.isBinary
  square (squarings m.rowCount) m

def reflexiveClosure (m : Matrix) : Build Matrix := do
  let paths ← m.closure
  paths.union (← identity m.dims.size)

def subset (a b : Matrix) : Build Value := do
  a.sameDims b
  let theirs := b.cells.index
  let terms ← a.cells.entries.mapM fun (i, v) => Circuit.implies v (valueAt theirs i)
  Circuit.all terms

def equals (a b : Matrix) : Build Value := do
  let forward ← a.subset b
  let backward ← b.subset a
  Circuit.and forward backward

def some (m : Matrix) : Synth Value := Circuit.any m.cells.values

def no (m : Matrix) : Synth Value := do return (← m.some).not

/-- Takes one more value into account: that it is not true together with one before it, and whether
one has been true up to it. -/
def exclude (apart : Array Value) (before v : Value) : Synth (Array Value × Value) := do
  let both ← Circuit.and v before
  let before ← Circuit.or before v
  return (apart.push both.not, before)

/-- Whether there is at most one tuple, and whether there is one. -/
def atMostOne (m : Matrix) : Synth (Value × Value) := do
  let (apart, some) ← m.cells.values.foldlM (fun (apart, before) v => exclude apart before v)
    (#[], .const false)
  return (← Circuit.all apart.toList, some)

def lone (m : Matrix) : Synth Value := do return (← m.atMostOne).1

def one (m : Matrix) : Synth Value := do
  let (lone, some) ← m.atMostOne
  Circuit.and lone some

end ModelFinder.Matrix
