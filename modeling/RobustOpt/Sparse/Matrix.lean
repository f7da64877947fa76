import RobustOpt.Scalar.Basic

/-!
# Sparse matrices

Matrices stored by rows, each row a list of columns and entries in increasing column order. An
entry that is stored may be zero.

## Main definitions

* `SparseMatrix`: the rows and the number of columns.
* `SparseMatrix.ofEntries`: the matrix of a list of entries, duplicates summed.
* `SparseMatrix.entry`, `SparseMatrix.toDense`: the entries, absent ones being zero.
* `SparseMatrix.mulVec`, `SparseMatrix.vecMul`: products with a vector.
-/

namespace RobustOpt

structure SparseMatrix (α : Type) where
  rows : List (List (Nat × α))
  width : Nat

namespace SparseMatrix

variable {α : Type} [Scalar α]

def height (m : SparseMatrix α) : Nat := m.rows.length

/-- Add an entry to a row in column order, onto an entry already there. -/
def insert (column : Nat) (x : α) : List (Nat × α) → List (Nat × α)
  | [] => [(column, x)]
  | (c, y) :: rest =>
    if column < c then (column, x) :: (c, y) :: rest
    else if column = c then (c, y + x) :: rest
    else (c, y) :: insert column x rest

/-- The matrix of a list of entries `(row, column, value)`, summed in the order of the list. -/
def ofEntries (height width : Nat) (entries : List (Nat × Nat × α)) : SparseMatrix α where
  rows := (List.range height).map fun i =>
    (entries.filter fun e => e.1 == i).foldl (fun row e => insert e.2.1 e.2.2 row) []
  width := width

@[simp] theorem height_ofEntries (height width : Nat) (entries : List (Nat × Nat × α)) :
    (ofEntries height width entries).height = height := by
  simp [ofEntries, SparseMatrix.height]

/-- The matrix of dense rows, zeros not stored. -/
def ofDense (rows : List (List α)) : SparseMatrix α where
  rows := rows.map fun row => (row.mapIdx fun j x => (j, x)).filter fun p => !Scalar.isZero p.2
  width := (rows.head?.getD []).length

/-- The entry of a row at a column. -/
def entry (row : List (Nat × α)) (column : Nat) : α :=
  ((row.find? fun p => p.1 == column).map Prod.snd).getD 0

/-- All entries, row by row. -/
def toDense (m : SparseMatrix α) : List (List α) :=
  m.rows.map fun row => (List.range m.width).map (entry row)

theorem length_toDense (m : SparseMatrix α) : m.toDense.length = m.height := by
  simp [toDense, height]

/-- The product with a column vector; each row is summed in column order. -/
def mulVec (m : SparseMatrix α) (x : List α) : List α :=
  m.rows.map fun row => row.foldl (fun acc p => acc + p.2 * x.getD p.1 0) 0

/-- The product of a row vector with the matrix; each column is summed in row order. -/
def vecMul (u : List α) (m : SparseMatrix α) : List α :=
  (List.range m.width).map fun j =>
    (m.rows.zip u).foldl (fun acc r =>
      match r.1.find? fun p => p.1 == j with
      | some p => acc + p.2 * r.2
      | none => acc) 0

end SparseMatrix

end RobustOpt
