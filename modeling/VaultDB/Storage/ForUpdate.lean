import VaultDB.Sql.VmInterp
import VaultDB.Storage.RowFormat
import VaultDB.Storage.Snapshot
set_option autoImplicit false

/-!
`SELECT … FOR UPDATE` beside the plain SELECT, after `readRowsVMLock` and `executeSimpleSelect`.

The plain SELECT decodes every tuple, asks for its visibility with the masked ids and evaluates the
clause on the row; `SelectForUpdateVM` runs the compiled clause on the bytes and takes the ids as
stored.  Row locks, which only make the scan wait, are left out.
-/

namespace VaultDB.Storage
open Lib Sql.Vm List Option

def TableSchema.forClauses (s : TableSchema) (name : String) : Sql.TableSchema where
  name := name
  columns := s.columns.map fun c => { name := c.name, type := c.type, primaryKey := c.primaryKey }

namespace Managed

/-- The test of `readRowsVMLock`, on the words of the tuple. -/
def visibleRaw (s : Managed) (t : Tuple) : Bool :=
  let txID := s.engine.clock.txCounter
  let xmin := t.createdTx.toNat
  let xmax := t.deletedTx
  (xmin == txID || (xmin ≤ txID && s.engine.clock.isCommitted xmin && !s.active.inSnapshot txID xmin)) &&
    (xmax == 0 || txID < xmax || s.active.inSnapshot txID xmax)

section
variable {fl : Sql.Float64} (C : Codec fl) (toLower : String → String) (code : List (OpCode fl.F))
/-- The visitor's rows, each with its version.  An error of the clause drops the row; `none` stands
for a fault of the machine. -/
def lockVisible (s : Managed) : List (PageSlot × Tuple) → Option (List ((PageSlot × Tuple) × List Value))
  | [] => some []
  | x :: slots =>
    match executeVMRaw fl C.text code (rawTuple x.2.data) with
    | .error .fault => none
    | .error (.error _) => lockVisible s slots
    | .ok false => lockVisible s slots
    | .ok true =>
      (lockVisible s slots).map fun rows =>
        if s.visibleRaw x.2 then ((decodeTuple C (rawTuple x.2.data)).map fun row => (x,row)).toList++rows else rows

/-- `SelectForUpdateVM`; without a predicate it reads as the plain SELECT does. -/
def selectForUpdateVM (s : Managed) (k : TableKey) (predicate : Option (List (OpCode fl.F))) :
    Option (List ((PageSlot × Tuple) × List Value)) :=
  match predicate with
  | none => s.selectRows (sqlRows C toLower) k
  | some code =>
    (s.engine.tables k).bind fun t =>
      if t.lockedBy = none then
        match t.scanSlots with
        | (slots,true) => lockVisible C code s slots
        | (_,false) => none
      else none

def whereTest (evalExpr : List Value → Except String Bool) (row : List Value) : Option Bool :=
  match executeVM fl code row with
  | .ok (.bool b) => some b
  | .error .fault => none
  | _ => (evalExpr row).toOption
end

def keepRows (test : List Value → Option Bool) :
    List ((PageSlot × Tuple) × List Value) → Option (List ((PageSlot × Tuple) × List Value))
  | [] => some []
  | x :: rows => (test x.2).bind fun b => (keepRows test rows).map fun kept => if b then x :: kept else kept

section
variable {fl : Sql.Float64} (C : Codec fl) (toLower : String → String) (evalExpr : List Value → Except String Bool)
def selectWhere (s : Managed) (k : TableKey) (code : List (OpCode fl.F)) :
    Option (List ((PageSlot × Tuple) × List Value)) :=
  (s.selectRows (sqlRows C toLower) k).bind (keepRows (whereTest code evalExpr))
end
end Managed

/-- The stamps of a tuple are ids the engine has handed out, and nothing else is in the word of the
deleter. -/
structure Clock.Dated (c : Clock) (t : Tuple) : Prop extends c.Issued t where
  deleted : t.deletedTx ≤ c.txCounter

theorem Clock.Dated.lasting : Lasting Clock.Dated where
  mono h hc := ⟨h.toIssued.mono hc,Nat.le_trans h.deleted hc.1⟩
  written h hx hm := ⟨Clock.Issued.lasting.written h hx hm,by simp [h.2]⟩
  hot n h := ⟨Clock.Issued.lasting.hot n h.toIssued,h.deleted⟩
  stamp h hx := ⟨Clock.Issued.lasting.stamp h.toIssued hx,hx⟩

namespace Managed

theorem xmin_of_lt {t : Tuple} (h : t.createdTx.toNat < 2^48) : t.xmin = t.createdTx.toNat := by
  have := Tuple.xmin_ofNat t.createdTx.toNat t.deletedTx t.data
  rw [BitVec.ofNat_toNat,BitVec.setWidth_eq,Nat.mod_eq_of_lt h] at this
  exact this

theorem visibleRaw_iff {s : Managed} {t : Tuple} (h : s.engine.clock.Dated t)
    (hc : s.engine.clock.txCounter < 2^48) :
    s.visibleRaw t = true ↔ s.visible t = true ∧ t.createdTx.toNat < 2^48 := by
  have hxmax : t.xmax = t.deletedTx := Nat.mod_eq_of_lt (Nat.lt_of_le_of_lt h.deleted hc)
  by_cases hlt : t.createdTx.toNat < 2^48
  · simp only [visibleRaw,visible,ActiveTxs.sees,xmin_of_lt hlt,hxmax,hlt,and_true]
  · have hne : t.createdTx.toNat ≠ s.engine.clock.txCounter := by omega
    have hgt : ¬ t.createdTx.toNat ≤ s.engine.clock.txCounter := by omega
    simp [visibleRaw,hne,hgt]
    omega

section
variable {fl : Sql.Float64} {C : Codec fl} {toLower : String → String} {code : List (OpCode fl.F)}
  {s : Managed} {schema : TableSchema} {test : List Value → Option Bool} {slots : List (PageSlot × Tuple)}
  {rows plain locked : List ((PageSlot × Tuple) × List Value)} {x : PageSlot × Tuple}
def TakenRaw (C : Codec fl) (code : List (OpCode fl.F)) (s : Managed) (t : Tuple) : Prop :=
  executeVMRaw fl C.text code (rawTuple t.data) = .ok true ∧ s.visibleRaw t = true

theorem lockVisible_cons (slots : List (PageSlot × Tuple))
    (hfault : executeVMRaw fl C.text code (rawTuple x.2.data) ≠ .error .fault)
    {row : List Value} (hrow : decodeTuple C (rawTuple x.2.data) = some row) :
    (TakenRaw C code s x.2 → lockVisible C code s (x :: slots) = (lockVisible C code s slots).map ((x,row) :: ·)) ∧
      (¬TakenRaw C code s x.2 → lockVisible C code s (x :: slots) = lockVisible C code s slots) := by
  unfold TakenRaw
  simp only [lockVisible,hrow]
  cases hrun : executeVMRaw fl C.text code (rawTuple x.2.data) with
  | error f =>
    cases f with
    | error e => simp
    | fault => exact absurd hrun hfault
  | ok b =>
    cases b with
    | false => simp
    | true => cases hv : s.visibleRaw x.2 <;> simp

theorem no_fault_of_lockVisible (h : lockVisible C code s slots = some locked) :
    ∀ x ∈ slots, executeVMRaw fl C.text code (rawTuple x.2.data) ≠ .error .fault := by
  induction slots generalizing locked with
  | nil => simp
  | cons y slots ih =>
    simp only [lockVisible] at h
    rw [forall_mem_cons]
    cases hrun : executeVMRaw fl C.text code (rawTuple y.2.data) with
    | error f =>
      cases f with
      | error e =>
        rw [hrun] at h
        exact ⟨by simp,ih h⟩
      | fault => simp [hrun] at h
    | ok b =>
      rw [hrun] at h
      cases b with
      | false => exact ⟨by simp,ih h⟩
      | true =>
        obtain ⟨locked',h',-⟩ := map_eq_some_iff.1 h
        exact ⟨by simp,ih h'⟩

theorem scan_cons (hrows : decodeVisible (sqlRows C toLower) s schema (x :: slots) = some rows)
    (hplain : keepRows test rows = some plain) : ∃ row rows' plain', decodeTuple C (rawTuple x.2.data) = some row ∧
      decodeVisible (sqlRows C toLower) s schema slots = some rows' ∧ keepRows test rows' = some plain' ∧
      plain = if s.visible x.2 = true ∧ test row = some true then (x,row) :: plain' else plain' := by
  obtain ⟨row,hrow,h⟩ := bind_eq_some_iff.1 hrows
  obtain ⟨rows',hrows',rfl⟩ := map_eq_some_iff.1 h
  cases hv : s.visible x.2 with
  | false =>
    rw [hv] at hplain
    exact ⟨row,rows',plain,hrow,hrows',hplain,by simp⟩
  | true =>
    simp only [hv,if_true,keepRows] at hplain
    obtain ⟨b,hb,hplain⟩ := bind_eq_some_iff.1 hplain
    obtain ⟨plain',hplain',rfl⟩ := map_eq_some_iff.1 hplain
    exact ⟨row,rows',plain',hrow,hrows',hplain',by cases b <;> simp [hb]⟩

theorem lockVisible_spec (hrows : decodeVisible (sqlRows C toLower) s schema slots = some rows)
    (hplain : keepRows test rows = some plain)
    (htaken : ∀ x ∈ slots, ∀ row, decodeTuple C (rawTuple x.2.data) = some row → TakenRaw C code s x.2 →
      s.visible x.2 = true ∧ test row = some true)
    (hfault : ∀ x ∈ slots, executeVMRaw fl C.text code (rawTuple x.2.data) ≠ .error .fault) :
    ∃ locked, lockVisible C code s slots = some locked ∧ locked.Sublist plain ∧
      (locked = plain ↔ ∀ x ∈ slots, ∀ row, decodeTuple C (rawTuple x.2.data) = some row → s.visible x.2 = true →
        test row = some true → TakenRaw C code s x.2) := by
  induction slots generalizing rows plain with
  | nil =>
    cases hrows
    cases hplain
    exact ⟨[],rfl,.slnil,by simp⟩
  | cons x slots ih =>
    obtain ⟨row,rows',plain',hrow,hrows',hplain',rfl⟩ := scan_cons hrows hplain
    rw [forall_mem_cons] at hfault htaken
    obtain ⟨locked,hlocked,hsub,hiff⟩ := ih hrows' hplain' htaken.2 hfault.2
    obtain ⟨htake,hleave⟩ := lockVisible_cons slots hfault.1 hrow
    have hhead : (∀ row', decodeTuple C (rawTuple x.2.data) = some row' → s.visible x.2 = true →
        test row' = some true → TakenRaw C code s x.2) ↔
        (s.visible x.2 = true ∧ test row = some true → TakenRaw C code s x.2) := by
      simp [hrow]
    rw [forall_mem_cons,← hiff,hhead]
    by_cases ht : TakenRaw C code s x.2
    · have hkept := htaken.1 row hrow ht
      refine ⟨(x,row) :: locked,by rw [htake ht,hlocked]; rfl,?_,?_⟩
      · rw [if_pos hkept]
        exact hsub.cons_cons _
      · simp [hkept,ht]
    · refine ⟨locked,by rw [hleave ht,hlocked],?_,?_⟩
      · split
        · exact hsub.cons _
        · exact hsub
      · by_cases hkept : s.visible x.2 = true ∧ test row = some true
        · have hne : locked ≠ (x,row) :: plain' := by
            intro he
            have := hsub.length_le
            rw [he,length_cons] at this
            omega
          simp [hkept,ht,hne]
        · simp [hkept]
end
end Managed

section
variable {fl : Sql.Float64} {C : Codec fl} {toLower : String → String} {evalExpr : List Value → Except String Bool}
end

def asciiCodec : Codec Sql.Float64.single where
  utf8 s := s.toList.map fun c => UInt8.ofNat c.toNat
  text bytes := String.ofList (bytes.map fun b => Char.ofNat b.toNat)
  bits _ := 0
  objectBytes _ := .error "unsupported value type for binary encoding"
  objectOf _ := none
  asVector _ := none
  jsonObject _ := none

def asciiRows : RowOps Value := sqlRows asciiCodec id
def insertValue (v : Value) : Exec Int := insertRows asciiRows users [[v]]
def setFirst (v : Value) : Exec Int := updateRows asciiRows users [0] [("id",v)]
def idClause (op : Sql.BinaryOp) (n : Int) : Sql.Expr := .binary op (.columnRef "" "id") (.value (.int n))
def usersSchema : Sql.TableSchema := TableSchema.forClauses ⟨[⟨"id","INT",0,false⟩]⟩ "users"
def idCode (op : Sql.PruneOp) (n : Int) : List (OpCode Sql.Float64.single.F) :=
  [.loadColumn 0,.pushInt n,.compare op]

def interpretUsers (e : Sql.Expr) (row : List Value) : Except String Bool :=
  (Sql.bareInterpreter Sql.Float64.single).evalExpr (some e) row usersSchema none

def bothSelects (s : Managed) (op : Sql.PruneOp) (n : Int) :
    Option (List (List Value)) × Option (List (List Value)) :=
  ((s.selectWhere asciiCodec id (interpretUsers (idClause op.binary n)) users (idCode op n)).map (·.map Prod.snd),
    (s.selectForUpdateVM asciiCodec id users (some (idCode op n))).map (·.map Prod.snd))

theorem compile_idClause (op : Sql.PruneOp) (n : Int) :
    compile Sql.Float64.single id usersSchema (some (idClause op.binary n)) = .ok (idCode op n) := by
  cases op <;> rfl

def insertedOne : PageSlot × Tuple := (⟨⟨0,0⟩,0⟩,⟨1#64,0,[1,0,20,0,105,1,0,0,0,0,0,0,0]⟩)

end VaultDB.Storage
