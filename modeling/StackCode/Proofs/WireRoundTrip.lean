import Mathlib.Data.List.Forall2
import StackCode.Host.ProgramFile
import StackCode.Proofs.ScopeTree
import StackCode.Wire.Program

/-!
# Reading what was written

`Reads get bytes a` says that the reader `get` takes exactly `bytes` for the value `a`: whatever
follows them is left, and when they are cut off anywhere the reader reports the end of the bytes.
Readers that are run one after the other take the bytes of both (`Reads.bind`), so that the fact is
built up from single bytes to whole programs (`reads_program`).

A table may list its variables in any order, since nothing but the order in which they were inserted
decides on it. The program that is read back has the same variables with the same slots
(`Scope.Same`); it is the very same program when the variables are listed as the table holds them.
In whatever order they are listed, bytes that end too early are told apart from every other mistake
(`decode_truncated`).
-/

namespace StackCode

namespace Table

variable {α : Type}

/-- Entries with different names are found in any order. -/
theorem findEntry_of_perm {l l' : List (String × α)} (hperm : l.Perm l')
    (h : (l'.map Prod.fst).Nodup) (name : String) : findEntry name l = findEntry name l' := by
  ext value
  rw [findEntry_eq_some_iff h, findEntry_eq_some_iff ((hperm.map _).nodup_iff.mpr h),
    hperm.mem_iff]

/-- Entries with distinct names are those of a table. -/
theorem entries_ofList {l : List (String × α)} (h : (l.map Prod.fst).Nodup) :
    (ofList l).entries = l := by
  -- the entries that are still to come have names that the table does not hold yet
  have hfold : ∀ (l : List (String × α)) (t : Table α),
      (t.entries.map Prod.fst ++ l.map Prod.fst).Nodup →
      (l.foldl (fun t e => t.insert e.1 e.2) t).entries = t.entries ++ l := by
    intro l
    induction l with
    | nil =>
      intro t _
      exact (List.append_nil _).symm
    | cons e rest ih =>
      intro t hn
      obtain ⟨name, value⟩ := e
      have hnew : t.get? name = none := by
        rw [Option.eq_none_iff_forall_ne_some]
        intro old hold
        have hmem := (findEntry_eq_some_iff t.distinct).mp hold
        exact (List.nodup_append.mp hn).2.2 name (List.mem_map.mpr ⟨_, hmem, rfl⟩) name
          (by simp) rfl
      have hentries : (t.insert name value).entries = _ := entries_insert_of_none hnew
      rw [List.foldl_cons, ih, hentries, List.append_assoc]
      · rfl
      · rw [hentries]
        simpa using hn
  exact hfold l empty h

/-- A table made of its entries in any order has the same values. -/
theorem get?_ofList_of_perm {l : List (String × α)} {t : Table α} (h : l.Perm t.entries)
    (name : String) : (ofList l).get? name = t.get? name := by
  have hnodup : (l.map Prod.fst).Nodup := (h.map _).nodup_iff.mpr t.distinct
  show findEntry name (ofList l).entries = findEntry name t.entries
  rw [entries_ofList hnodup]
  exact findEntry_of_perm h t.distinct name

/-- A table made of its own entries is the table. -/
theorem ofList_entries (t : Table α) : ofList t.entries = t := by
  have h := entries_ofList t.distinct
  cases hl : ofList t.entries with
  | mk entries distinct =>
    cases t
    rw [hl] at h
    cases h
    rfl

end Table

namespace Wire

/-! ## Readers -/

/-- The reader takes these bytes for the value, and no part of them is enough. -/
structure Reads {α : Type} (get : Reader α) (bytes : List UInt8) (a : α) : Prop where
  whole : ∀ rest, get (bytes ++ rest) = .ok (a, rest)
  part : ∀ k, k < bytes.length → get (bytes.take k) = .error .endOfBytes

section

variable {α β : Type} {get : Reader α} {f : α → Reader β} {bytes more : List UInt8} {a : α} {b : β}

theorem reads_pure (a : α) : Reads (pure a) [] a :=
  ⟨fun _ => rfl, fun _ h => absurd h (Nat.not_lt_zero _)⟩

theorem bind_ok {input rest : List UInt8} (h : get input = .ok (a, rest)) :
    (get >>= f) input = f a rest := by
  show (get input >>= fun p => f p.1 p.2) = _
  rw [h]
  rfl

/-- A reader that fails lets nothing follow. -/
theorem bind_error {input : List UInt8} {e : DecodeError} (h : get input = .error e) :
    (get >>= f) input = .error e := by
  show (get input >>= fun p => f p.1 p.2) = _
  rw [h]
  rfl

/-- **One reader after the other takes the bytes of both.** -/
theorem Reads.bind (h : Reads get bytes a) (hf : Reads (f a) more b) :
    Reads (get >>= f) (bytes ++ more) b where
  whole rest := by
    rw [List.append_assoc, bind_ok (h.whole _)]
    exact hf.whole rest
  part k hk := by
    rw [List.take_append]
    rw [List.length_append] at hk
    -- the cut is inside the first bytes, or they are whole and it is inside the second ones
    by_cases hlt : k < bytes.length
    · rw [Nat.sub_eq_zero_of_le (Nat.le_of_lt hlt), List.take_zero, List.append_nil]
      exact bind_error (h.part k hlt)
    · rw [List.take_of_length_le (Nat.not_lt.mp hlt), bind_ok (h.whole _)]
      exact hf.part _ (by omega)

/-- What follows takes no more bytes. -/
theorem Reads.bindNil (h : Reads get bytes a) (hf : Reads (f a) [] b) :
    Reads (get >>= f) bytes b := by
  have := h.bind hf
  rwa [List.append_nil] at this

theorem Reads.bindPure {g : α → β} (h : Reads get bytes a) :
    Reads (do return g (← get)) bytes (g a) :=
  h.bindNil (reads_pure (g a))

theorem reads_byte (b : UInt8) : Reads getByte [b] b where
  whole _ := rfl
  part k hk := by
    obtain rfl : k = 0 := Nat.lt_one_iff.mp hk
    rfl

/-- A byte decides how to go on. -/
theorem Reads.afterByte {f : UInt8 → Reader β} {c : UInt8} (h : Reads (f c) more b) :
    Reads (getByte >>= f) (c :: more) b :=
  (reads_byte c).bind h

end

/-! ## Numbers -/

theorem toNat_toUInt8 {n : Nat} (h : n < 256) : n.toUInt8.toNat = n := by
  rw [Nat.toUInt8_eq, UInt8.toNat_ofNat']
  exact Nat.mod_eq_of_lt h

/-- A number is read from its groups when its highest group is not above the bound. -/
theorem reads_groups {top : Nat} (htop : top < 128) (width : Nat) {n : Nat}
    (hn : n < (top + 1) * 128 ^ width) :
    Reads (getGroups top (width + 1)) (putGroups (width + 1) n) n := by
  -- a group that is the last one, wherever that is allowed
  have hlast : ∀ width n, n < 128 → (width = 0 → n ≤ top) →
      Reads (getGroups top (width + 1)) [n.toUInt8] n := by
    intro width n hlt hmax
    have hbyte := toNat_toUInt8 (show n < 256 by omega)
    refine Reads.afterByte ?_
    rw [hbyte, if_pos hlt, if_neg (by omega)]
    exact reads_pure n
  induction width generalizing n with
  | zero =>
    rw [Nat.pow_zero, Nat.mul_one] at hn
    rw [putGroups, if_pos (by omega)]
    exact hlast 0 n (by omega) fun _ => by omega
  | succ width ih =>
    rw [putGroups]
    by_cases hlt : n < 128
    · rw [if_pos hlt]
      exact hlast (width + 1) n hlt nofun
    · have hbyte := toNat_toUInt8 (show n % 128 + 128 < 256 by omega)
      have hhigh : n / 128 < (top + 1) * 128 ^ width := by
        rw [Nat.div_lt_iff_lt_mul (by decide), Nat.mul_assoc, ← Nat.pow_succ]
        exact hn
      rw [if_neg hlt]
      refine Reads.afterByte ?_
      rw [hbyte, if_neg (by omega)]
      have hread := (ih hhigh).bindPure (g := fun high => n % 128 + 128 - 128 + 128 * high)
      rwa [show n % 128 + 128 - 128 + 128 * (n / 128) = n by omega] at hread

/-- A number of 64 bits takes as many bytes as it needs. -/
theorem reads_word (n : UInt64) : Reads getWord (putWord n) n := by
  have hn : n.toNat < (1 + 1) * 128 ^ 9 := n.toNat_lt
  have h := (reads_groups (by decide) 9 hn).bindPure (g := Nat.toUInt64)
  rwa [Nat.toUInt64_eq, UInt64.ofNat_toNat] at h

theorem reads_half (n : UInt32) : Reads getHalf (putHalf n) n := by
  have hn : n.toNat < (15 + 1) * 128 ^ 4 := n.toNat_lt
  have h := (reads_groups (by decide) 4 hn).bindPure (g := Nat.toUInt32)
  rwa [Nat.toUInt32_eq, UInt32.ofNat_toNat] at h

/-- Folding a signed number into an unsigned one loses nothing. -/
theorem unzigzag_zigzag (n : Int64) : unzigzag (zigzag n) = n := by
  have hlt := n.toInt_lt
  have hle := n.le_toInt
  have hfits : ∀ k : Nat, k < 2 ^ 64 → k.toUInt64.toNat = k := by
    intro k hk
    rw [Nat.toUInt64_eq, UInt64.toNat_ofNat']
    exact Nat.mod_eq_of_lt hk
  unfold unzigzag zigzag
  by_cases hneg : n < 0
  · have hneg' : n.toInt < 0 := Int64.lt_iff_toInt_lt.mp hneg
    rw [if_pos hneg, hfits _ (by omega), if_neg (by omega)]
    rw [show -(((((-n.toInt).toNat * 2 - 1) / 2 : Nat)) : Int) - 1 = n.toInt by omega]
    exact n.ofInt_toInt
  · have hpos : ¬ n.toInt < 0 := fun h => hneg (Int64.lt_iff_toInt_lt.mpr h)
    rw [if_neg hneg, hfits _ (by omega), if_pos (by omega)]
    rw [show ((n.toInt.toNat * 2 / 2 : Nat) : Int) = n.toInt by omega]
    exact n.ofInt_toInt

/-- A number with a sign is folded into one without. -/
theorem reads_int (n : Int64) : Reads getInt (putInt n) n := by
  have h := (reads_word (zigzag n)).bindPure (g := unzigzag)
  rwa [unzigzag_zigzag] at h

/-! ## Truth values, options, lists and texts -/

theorem reads_bool (b : Bool) : Reads getBool (putBool b) b := by
  cases b <;> exact Reads.afterByte (reads_pure _)

/-- One byte says whether a value follows. -/
theorem reads_option {α : Type} {get : Reader α} {put : α → List UInt8}
    (h : ∀ a, Reads get (put a) a) (o : Option α) : Reads (getOption get) (putOption put o) o := by
  cases o with
  | none => exact Reads.afterByte (reads_pure none)
  | some a => exact Reads.afterByte (h a).bindPure

/-- Elements that stand one after the other; what is read may differ from what was written. -/
theorem reads_many {α β : Type} {get : Reader β} {put : α → List UInt8} {g : α → β} {xs : List α}
    (h : ∀ a ∈ xs, Reads get (put a) (g a)) :
    Reads (getMany get xs.length) (xs.flatMap put) (xs.map g) := by
  induction xs with
  | nil => exact reads_pure []
  | cons a rest ih =>
    rw [List.flatMap_cons]
    exact (h a (by simp)).bind (ih fun x hx => h x (by simp [hx])).bindPure

/-- The length comes first. -/
theorem reads_list {α β : Type} {get : Reader β} {put : α → List UInt8} {g : α → β} {xs : List α}
    (hlen : xs.length < 2 ^ 64) (h : ∀ a ∈ xs, Reads get (put a) (g a)) :
    Reads (getList get) (putList put xs) (xs.map g) := by
  refine (reads_word _).bind ?_
  rw [Nat.toUInt64_eq, UInt64.toNat_ofNat', Nat.mod_eq_of_lt hlen]
  exact reads_many h

theorem fromUTF8?_toUTF8 (s : String) : String.fromUTF8? s.toUTF8 = some s := by
  have hvalid : s.toUTF8.IsValidUTF8 := s.isValidUTF8
  unfold String.fromUTF8?
  rw [dif_pos hvalid]
  rfl

/-- A text is its length in bytes and then the bytes. -/
theorem reads_text {s : String} (h : s.utf8ByteSize < 2 ^ 64) : Reads getText (putText s) s := by
  have hlen : s.toUTF8.data.toList.length < 2 ^ 64 := h
  refine (reads_word _).bind ?_
  rw [Nat.toUInt64_eq, UInt64.toNat_ofNat', Nat.mod_eq_of_lt hlen]
  refine ⟨fun rest => ?_, fun k hk => ?_⟩
  · have henough : ¬ (s.toUTF8.data.toList ++ rest).length < s.toUTF8.data.toList.length := by
      rw [List.length_append]
      omega
    show (if _ then _ else _ : Reader String) _ = _
    rw [if_neg henough, List.drop_left, List.take_left, Array.toArray_toList]
    have hread : String.fromUTF8? ⟨s.toUTF8.data⟩ = some s := fromUTF8?_toUTF8 s
    rw [hread]
    rfl
  · have hshort : (s.toUTF8.data.toList.take k).length < s.toUTF8.data.toList.length := by
      rw [List.length_take]
      omega
    show (if _ then _ else _ : Reader String) _ = _
    rw [if_pos hshort]
    rfl

/-! ## Instructions -/

theorem reads_scopeId (s : ScopeId) : Reads getScopeId (putScopeId s) s :=
  (reads_half s.val).bindPure

theorem reads_label (label : BlockLabel) : Reads getLabel (putHalf (labelNumber label)) label := by
  cases label <;> exact (reads_half _).bindNil (reads_pure _)

theorem reads_visibility (v : Visibility) :
    Reads getVisibility (putHalf (visibilityNumber v)) v := by
  cases v <;> exact (reads_half _).bindNil (reads_pure _)

end Wire

/-- The text among the operands of an operation. -/
def Op.operandText? : Op → Option String
  | pushString s | pushSymbol s => some s
  | getLocal name | setLocal name _ | getGlobal name | setGlobal name => some name
  | send message .. => some message
  | defineMethod name _ => some name
  | _ => none

namespace Wire

/-- **The number of an instruction says which operands follow.** -/
theorem reads_operands {op : Op} (h : ∀ s ∈ op.operandText?, s.utf8ByteSize < 2 ^ 64) :
    Reads (getOperands (opNumber op).toNat) (putOperands op) op := by
  cases op with
  | pushInt n => exact (reads_int n).bindPure
  | pushString s | pushSymbol s => exact (reads_text (h s rfl)).bindPure
  | getLocal name | getGlobal name | setGlobal name => exact (reads_text (h name rfl)).bindPure
  | setLocal name localOnly => exact (reads_text (h name rfl)).bind (reads_bool localOnly).bindPure
  | checkArgs n | pushArg n | yield n => exact (reads_word n).bindPure
  | send message argc receiver withBlock =>
    rw [putOperands, List.append_assoc, List.append_assoc]
    exact (reads_text (h message rfl)).bind <| (reads_word argc).bind <|
      (reads_bool receiver).bind (reads_bool withBlock).bindPure
  | defineMethod name s => exact (reads_text (h name rfl)).bind (reads_scopeId s).bindPure
  | defineBlock s => exact (reads_scopeId s).bindPure
  | endBlock label => exact (reads_label label).bindPure
  | next withValue => exact (reads_bool withValue).bindPure
  | setVisibility v => exact (reads_visibility v).bindPure
  | _ => exact reads_pure _

/-- An instruction is its number, its operands and its scope. -/
theorem reads_instruction {i : Instruction}
    (h : ∀ s ∈ i.op.operandText?, s.utf8ByteSize < 2 ^ 64) :
    Reads getInstruction (putInstruction i) i :=
  ((reads_half _).bind (reads_operands h)).bind (reads_scopeId i.scope).bindPure

/-! ## Scopes -/

theorem reads_variable {v : String × UInt64} (h : v.1.utf8ByteSize < 2 ^ 64) :
    Reads getVariable (putVariable v) v :=
  (reads_text h).bind (reads_word v.2).bindPure

/-- A scope is read with its variables in the order in which they were written. -/
theorem reads_scope {vars : List (String × UInt64)} (hlen : vars.length < 2 ^ 64)
    (hnames : ∀ v ∈ vars, v.1.utf8ByteSize < 2 ^ 64) (scope : Scope) :
    Reads getScope (putScopeWith vars scope) { scope with vars := .ofList vars } := by
  have hvars := reads_list (g := id) hlen fun v hv => reads_variable (hnames v hv)
  rw [List.map_id] at hvars
  unfold putScopeWith
  rw [List.append_assoc, List.append_assoc]
  exact hvars.bind <| (reads_bool scope.hoist).bind <| (reads_bool scope.block).bind
    (reads_option reads_scopeId scope.outer).bindPure

end Wire

/-! ## Programs -/

/-- Two scopes that differ at most in the order in which their tables hold the variables. -/
structure Scope.Same (a b : Scope) : Prop where
  vars : ∀ name, b.vars.get? name = a.vars.get? name
  hoist : b.hoist = a.hoist
  block : b.block = a.block
  outer : b.outer = a.outer

namespace Program

/-- All lengths of the program are 64-bit numbers, as those of everything are that is held in
memory. -/
structure Sized (p : Program) : Prop where
  code : p.code.length < 2 ^ 64
  texts : ∀ i ∈ p.code, ∀ s ∈ i.op.operandText?, s.utf8ByteSize < 2 ^ 64
  scopes : p.scopes.scopes.toList.length < 2 ^ 64
  vars : ∀ scope ∈ p.scopes.scopes.toList, scope.vars.entries.length < 2 ^ 64
  names : ∀ scope ∈ p.scopes.scopes.toList, ∀ v ∈ scope.vars.entries, v.1.utf8ByteSize < 2 ^ 64

/-- An order for the variables of every scope. -/
def Orders (p : Program) (orders : List (List (String × UInt64))) : Prop :=
  List.Forall₂ (fun vars scope => vars.Perm scope.vars.entries) orders p.scopes.scopes.toList

/-- The bytes of a program that lists the variables of its scopes in these orders. -/
def encodeIn (orders : List (List (String × UInt64))) (p : Program) : List UInt8 :=
  Wire.putList Wire.putInstruction p.code ++
    Wire.putList (fun x => Wire.putScopeWith x.1 x.2) (orders.zip p.scopes.scopes.toList)

/-- The orders in which the tables hold the variables. -/
def tableOrders (p : Program) : List (List (String × UInt64)) :=
  p.scopes.scopes.toList.map (·.vars.entries)

theorem orders_tableOrders (p : Program) : p.Orders p.tableOrders := by
  unfold Orders tableOrders
  rw [List.forall₂_map_left_iff, List.forall₂_same]
  exact fun _ _ => .refl _

theorem zip_tableOrders (p : Program) : p.tableOrders.zip p.scopes.scopes.toList =
    p.scopes.scopes.toList.map fun scope => (scope.vars.entries, scope) := by
  have h := List.zip_map' (f := fun scope : Scope => scope.vars.entries) (g := id)
    (l := p.scopes.scopes.toList)
  rwa [List.map_id] at h

/-- Encoding lists the variables as the table holds them. -/
theorem encode_eq (p : Program) : p.encode = p.encodeIn p.tableOrders := by
  unfold encode encodeIn Wire.putList
  rw [zip_tableOrders, List.length_map, List.flatMap_map]
  rfl

/-- The scope with its variables in a table that was filled in this order. -/
def reordered (x : List (String × UInt64) × Scope) : Scope := { x.2 with vars := .ofList x.1 }

variable {p : Program} {orders : List (List (String × UInt64))}

/-- **A program is read back**, with its variables in the order in which they were listed. -/
theorem reads_program (hp : p.Sized) (h : p.Orders orders) :
    Wire.Reads Wire.getProgram (p.encodeIn orders)
      { code := p.code,
        scopes := ⟨((orders.zip p.scopes.scopes.toList).map reordered).toArray⟩ } := by
  obtain ⟨hlen, hperm⟩ := List.forall₂_iff_zip.mp h
  have hcode := Wire.reads_list (g := id) hp.code fun i hi => Wire.reads_instruction (hp.texts i hi)
  rw [List.map_id] at hcode
  refine hcode.bind (Wire.Reads.bindPure (Wire.reads_list ?_ ?_))
  · rw [List.length_zip, hlen, Nat.min_self]
    exact hp.scopes
  · rintro ⟨vars, scope⟩ hx
    have hmem := (List.of_mem_zip hx).2
    have hvars := hperm hx
    exact Wire.reads_scope (hvars.length_eq ▸ hp.vars scope hmem)
      (fun v hv => hp.names scope hmem v (hvars.mem_iff.mp hv)) scope

/-- In another order a scope has the same variables. -/
theorem same_reordered (h : p.Orders orders) :
    List.Forall₂ Scope.Same p.scopes.scopes.toList
      ((orders.zip p.scopes.scopes.toList).map reordered) := by
  unfold Orders at h
  generalize p.scopes.scopes.toList = scopes at h ⊢
  induction h with
  | nil => exact .nil
  | cons hperm _ ih => exact .cons ⟨Table.get?_ofList_of_perm hperm, rfl, rfl, rfl⟩ ih

/-- In the order of the table a scope is the very same. -/
theorem reordered_tableOrders (p : Program) :
    (p.tableOrders.zip p.scopes.scopes.toList).map reordered = p.scopes.scopes.toList := by
  rw [zip_tableOrders, List.map_map]
  refine (List.map_congr_left fun scope _ => ?_).trans (List.map_id _)
  show { scope with vars := Table.ofList scope.vars.entries } = scope
  rw [Table.ofList_entries]

/-- Decoding ignores what follows a program. -/
theorem decode_of_reads {bytes : List UInt8} {q : Program} (h : Wire.Reads Wire.getProgram bytes q)
    (tail : List UInt8) : decode (bytes ++ tail) = .ok q := by
  unfold decode
  rw [h.whole tail]
  rfl

/-- **What was encoded is decoded again, whatever follows it.** Encoded as its tables hold the
variables, a program comes back as it was. Encoded with the variables of every scope in any order,
it comes back with the same instructions, and with scopes that have the same flags, the same outer
scopes and the same variables in the same slots. -/
theorem decode_encode_append (hp : p.Sized) (tail : List UInt8) :
    decode (p.encode ++ tail) = .ok p ∧
    ∀ orders, p.Orders orders → ∃ q, decode (p.encodeIn orders ++ tail) = .ok q ∧
      q.code = p.code ∧ List.Forall₂ Scope.Same p.scopes.scopes.toList q.scopes.scopes.toList := by
  refine ⟨?_, fun orders h => ⟨_, decode_of_reads (reads_program hp h) tail, rfl, ?_⟩⟩
  · have hreads := reads_program hp p.orders_tableOrders
    rw [reordered_tableOrders, Array.toArray_toList, ← encode_eq] at hreads
    exact decode_of_reads hreads tail
  · exact same_reordered h

/-- Holds numbers of all lengths, a name that is not ASCII, and a scope with two variables. -/
def extremes : Program where
  code := [⟨.pushInt Int64.minValue, .root⟩, ⟨.pushInt Int64.maxValue, ⟨4294967295⟩⟩,
    ⟨.send "größe" 18446744073709551615 true false, .root⟩, ⟨.endBlock .block, .root⟩]
  scopes := ⟨#[{ vars := .ofList [("a", 0), ("b", 300)] },
    { hoist := true, block := true, outer := some .root }]⟩

theorem sized_extremes : extremes.Sized where
  code := by decide
  texts := by decide
  scopes := by decide
  vars := by decide
  names := by decide

theorem decode_encode_extremes :
    decode (extremes.encode ++ [1, 2]) = .ok extremes ∧
    extremes.encodeIn [[("b", 300), ("a", 0)], []] ≠ extremes.encode ∧
    ∃ q, decode (extremes.encodeIn [[("b", 300), ("a", 0)], []] ++ [1, 2]) = .ok q ∧
      q.code = extremes.code ∧
      List.Forall₂ Scope.Same extremes.scopes.scopes.toList q.scopes.scopes.toList := by
  obtain ⟨hsame, hany⟩ := decode_encode_append sized_extremes [1, 2]
  exact ⟨hsame, by decide, hany _ (.cons (.swap ..) (.cons .nil .nil))⟩

/-- Bytes that are cut off end too early. -/
theorem decode_of_cut {bytes b : List UInt8} {q : Program}
    (h : Wire.Reads Wire.getProgram bytes q) (hb : b <+: bytes) (hne : b ≠ bytes) :
    decode b = .error .endOfBytes := by
  obtain ⟨more, rfl⟩ := hb
  have hmore : more ≠ [] := by
    rintro rfl
    exact hne (List.append_nil b).symm
  have hcut := h.part b.length (by simpa using List.length_pos_iff.mpr hmore)
  rw [List.take_left] at hcut
  unfold decode
  rw [hcut]
  rfl

/-- Loading reports what decoding reports, with the path. -/
theorem loadCode_of_decode {fs : Host.Files} {path : String} {b : List UInt8}
    {e : Wire.DecodeError} (hread : fs.read path = .ok b.toArray) (h : decode b = .error e)
    (used : Bool) : fs.loadCode path used = .error (.decode path e) := by
  unfold Host.Files.loadCode
  rw [hread]
  show ((decode b).mapError (Host.LoadError.decode path) >>= fun p => _) = _
  rw [h]
  rfl

/-- **A program whose bytes end too early is never taken for another one.** Cut off anywhere, what
was encoded is refused because the bytes end, and for no other reason, be it listed as its tables
hold the variables or in any other order. A file that holds such bytes is not loaded. -/
theorem decode_truncated (hp : p.Sized) :
    (∀ b, b <+: p.encode → b ≠ p.encode → decode b = .error .endOfBytes) ∧
    ∀ orders, p.Orders orders → ∀ b, b <+: p.encodeIn orders → b ≠ p.encodeIn orders →
      decode b = .error .endOfBytes ∧
      ∀ (fs : Host.Files) (path : String) (used : Bool), fs.read path = .ok b.toArray →
        fs.loadCode path used = .error (.decode path .endOfBytes) := by
  have hcut : ∀ orders, p.Orders orders → ∀ b, b <+: p.encodeIn orders →
      b ≠ p.encodeIn orders → decode b = .error .endOfBytes := fun orders h b hb hne =>
    decode_of_cut (reads_program hp h) hb hne
  constructor
  · rw [encode_eq]
    exact hcut _ p.orders_tableOrders
  · intro orders h b hb hne
    have hdecode := hcut orders h b hb hne
    exact ⟨hdecode, fun fs path used hread => loadCode_of_decode hread hdecode used⟩

/-- The cuts lie in a number of ten bytes and within a letter that takes two. -/
theorem decode_truncated_extremes :
    extremes.encode.take 5 ≠ extremes.encode ∧
    decode (extremes.encode.take 5) = .error .endOfBytes ∧
    decode ((extremes.encodeIn [[("b", 300), ("a", 0)], []]).take 34) = .error .endOfBytes := by
  obtain ⟨hsame, hany⟩ := decode_truncated sized_extremes
  have hne : extremes.encode.take 5 ≠ extremes.encode := by decide
  exact ⟨hne, hsame _ (List.take_prefix ..) hne,
    (hany _ (.cons (.swap ..) (.cons .nil .nil)) _ (List.take_prefix ..) (by decide)).1⟩

end Program

end StackCode
