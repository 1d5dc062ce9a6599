import Mathlib.Data.Int.ModEq
import Spp.Lib.Atoi
import Spp.Worker.SendTo

/-!
# The route to a backend

`InitRouteTable` reads the operator and its operand from a text like `"key % 10"`, and the nodes
with the keys that each is for.  Except for the operand, what it reads must be as expected, or an
assertion ends the process.  The operand is what `atoi` makes of the rest of the text.  It is an
`int`, and `spp_sendto` has it converted: the key is an `unsigned int`.

A key should come to a node whose range holds the quotient or the remainder.  It does for positive
operands.  By 0 the process divides, and of a negative operand the conversion makes one close to
2^32.

## Main definitions

* `GroupElem`, `initRouteTable` — a file of routes, and the table that is made of it.
* `RouteTable.chosen` — the node that `spp_sendto` chooses.
* `RouteTable.Routed` — the key is divided, and comes to the right node or to none.
* `Exact` — the conversion of the operand does no harm to the key.
-/

namespace Spp

/-! ## The file -/

/-- The attributes of a `node`. -/
structure NodeElem where
  type : List Char
  id : List Char
  servAddr : List Char
  port : List Char
  path : List Char
  begin_ : List Char
  end_ : List Char

/-- The attributes of the `group`, and its nodes. -/
structure GroupElem where
  servType : List Char
  route : List Char
  nodes : List NodeElem

/-- The union in a `TSockBind`. -/
inductive SockBind
  | ipport (ip port : ℕ)
  | path (path : List Char)
  deriving DecidableEq

/-- One of the four numbers of an address: up to 255, without zeros in front. -/
def octet (cs : List Char) : Option ℕ :=
  if cs ≠ [] ∧ cs.all Char.isDigit ∧ cs.length ≤ 3 ∧ (cs.head? = some '0' → cs.length = 1) ∧
      leadingNumber 10 cs ≤ 255 then
    some (leadingNumber 10 cs)
  else none

/-- `in_s2n`; the first number lies in the lowest byte. -/
def inS2n (addr : List Char) : Option ℕ :=
  match (addr.splitOn '.').map octet with
  | [some a, some b, some c, some d] => some (a + 2 ^ 8 * b + 2 ^ 16 * c + 2 ^ 24 * d)
  | _ => none

def allTrim (cs : List Char) : List Char := cs.filter (· ≠ ' ')

/-- The operator and the operand in the text.  It is an assertion that there is `key` in front, and
of `"key"` alone there is no `substr` from 4.  Without a text, `route_val_` is left as it is, and
is not read. -/
def initRoute (route : List Char) : Option (RouteOp × ℤ) :=
  match allTrim route with
  | [] => some (.other, 0)
  | 'k' :: 'e' :: 'y' :: op :: val =>
      some (if op = '%' then .mod else if op = '/' then .div else .other, atoi val)
  | _ => none

/-- The type and the address of a node; anything but these types is an assertion that fails. -/
def initBind (elem : NodeElem) : Option (SockType × SockBind) :=
  let ipport := (inS2n elem.servAddr).map fun ip =>
    SockBind.ipport ip (atoi elem.port % 2 ^ 16).toNat
  if elem.type = ['t', 'c', 'p'] then ipport.map fun b => (.tcp, b)
  else if elem.type = ['u', 'd', 'p'] then ipport.map fun b => (.udp, b)
  else if elem.type = ['u', 'n', 'i', 'x'] then some (.unix, .path (elem.path.take 256))
  else none

variable {α υ : Type}

/-- The node goes to its place in `map_node_`. -/
def RouteTable.put (tbl : RouteTable α) (node : NodeInfo α) (h : node.servType = tbl.servType) :
    RouteTable α where
  servType := tbl.servType
  route := tbl.route
  routeVal := tbl.routeVal
  mapNode := tbl.mapNode.put node.nodeId node
  node_key := by
    intro n info hinfo
    rw [StdMap.find?_put] at hinfo
    by_cases hn : n = node.nodeId
    · rw [if_pos hn, Option.some.injEq] at hinfo
      subst hinfo
      exact ⟨hn.symm, h⟩
    · rw [if_neg hn] at hinfo
      exact tbl.node_key n info hinfo

/-- The body of the loop over the nodes. -/
def RouteTable.addNode (tbl : RouteTable SockBind) (elem : NodeElem) :
    Option (RouteTable SockBind) :=
  (initBind elem).map fun (type, bind) =>
    tbl.put ⟨tbl.servType, toUnsigned (atoi elem.id), toUnsigned (atoi elem.begin_),
      toUnsigned (atoi elem.end_), type, bind⟩ rfl

/-- A table before its nodes are read. -/
def RouteTable.bare (servType : ℕ) (route : RouteOp) (routeVal : ℤ) : RouteTable α where
  servType := servType
  route := route
  routeVal := routeVal
  mapNode := .empty
  node_key := by
    intro n info hinfo
    cases hinfo

/-- `InitRouteTable`; a process that ends is `none`. -/
def initRouteTable (servType : ℕ) (conf : GroupElem) : Option (RouteTable SockBind) :=
  if toUnsigned (strtol0 conf.servType) = servType then
    (initRoute conf.route).bind fun (op, val) =>
      conf.nodes.foldlM RouteTable.addNode (.bare servType op val)
  else none

/-! ## The node of a key -/

/-- The key lies in the range of the node. -/
def NodeInfo.Covers (node : NodeInfo α) (key : ℤ) : Prop := node.begin_ ≤ key ∧ key ≤ node.end_

namespace RouteTable

/-- The node that `spp_sendto` finds; a node of id 0 is never found. -/
def chosen (tbl : RouteTable α) (routeKey : ℕ) : Option (NodeInfo α) :=
  (tbl.nodeKey routeKey).bind fun k =>
    if tbl.getNodeId k = 0 then none else tbl.getNodeInfo (tbl.getNodeId k)

/-- The remainder or the quotient; where the route has neither operator, it is the 0 that
`node_key` starts with. -/
def exactKey (tbl : RouteTable α) (routeKey : ℕ) : ℤ :=
  match tbl.route with
  | .mod => routeKey % tbl.routeVal
  | .div => routeKey / tbl.routeVal
  | .other => 0

/-- With this table, `spp_sendto` goes on with the node. -/
def SendsTo (tbl : RouteTable α) (routeKey : ℕ) (node : NodeInfo α) : Prop :=
  ∀ {υ : Type} (user : Handler (Payload × υ)) (w : Backend α υ) (config : RouteConfig α)
    (ans : SppAnswer), config.mapRouteTable.find? tbl.servType = some tbl →
    w.sppSendto user (some config) tbl.servType routeKey ans = some (w.sendNode user node ans)

/-- With this table, `spp_sendto` returns an error and sends nothing. -/
def Refuses (tbl : RouteTable α) (routeKey : ℕ) : Prop :=
  ∀ {υ : Type} (user : Handler (Payload × υ)) (w : Backend α υ) (config : RouteConfig α)
    (ans : SppAnswer), config.mapRouteTable.find? tbl.servType = some tbl →
    ∃ ret < 0, w.sppSendto user (some config) tbl.servType routeKey ans = some ⟨ret, 0, [], w⟩

/-- The key is divided, and comes to a node for the exact result, or to none. -/
structure Routed (tbl : RouteTable α) (routeKey : ℕ) : Prop where
  divides : tbl.nodeKey routeKey ≠ none
  covers : ∀ node, tbl.chosen routeKey = some node →
    node.Covers (tbl.exactKey routeKey) ∧ tbl.SendsTo routeKey node
  refuses : (∀ n node, tbl.getNodeInfo n = some node → ¬ node.Covers (tbl.exactKey routeKey)) →
    tbl.Refuses routeKey

variable {tbl : RouteTable α} {routeKey k : ℕ} {node : NodeInfo α}

theorem getNodeId_covers (h : tbl.getNodeId k ≠ 0)
    (hinfo : tbl.getNodeInfo (tbl.getNodeId k) = some node) : node.Covers k := by
  obtain ⟨node', hinfo', -, -, hrange⟩ := tbl.getNodeInfo_getNodeId h
  rw [hinfo', Option.some.injEq] at hinfo
  rw [← hinfo]
  exact ⟨by exact_mod_cast hrange.1, by exact_mod_cast hrange.2⟩

theorem chosen_eq_some_iff : tbl.chosen routeKey = some node ↔
    ∃ k, tbl.nodeKey routeKey = some k ∧ tbl.getNodeId k ≠ 0 ∧
      tbl.getNodeInfo (tbl.getNodeId k) = some node := by
  simp [chosen, Option.bind_eq_some_iff]

theorem sendsTo_chosen (h : tbl.chosen routeKey = some node) : tbl.SendsTo routeKey node := by
  intro υ user w config ans htable
  obtain ⟨k, hkey, hid, hinfo⟩ := chosen_eq_some_iff.mp h
  exact w.sppSendto_of_node user ans htable hkey hid hinfo

theorem refuses_of_not_chosen (hkey : tbl.nodeKey routeKey ≠ none)
    (h : tbl.chosen routeKey = none) : tbl.Refuses routeKey := by
  intro υ user w config ans htable
  obtain ⟨k, hk⟩ := Option.ne_none_iff_exists'.mp hkey
  by_cases hid : tbl.getNodeId k = 0
  · refine ⟨-3, by decide, ?_⟩
    simp [Backend.sppSendto, htable, hk, hid]
  · -- a node with an id is in the table
    obtain ⟨node, hinfo, -⟩ := tbl.getNodeInfo_getNodeId hid
    rw [chosen, hk, Option.bind_some, if_neg hid, hinfo] at h
    cases h

/-- What is right for the key is right for the call. -/
theorem routed_of_exact (hkey : tbl.nodeKey routeKey = some k)
    (hexact : (k : ℤ) = tbl.exactKey routeKey) : tbl.Routed routeKey := by
  have hcovers : ∀ node, tbl.chosen routeKey = some node →
      node.Covers (tbl.exactKey routeKey) ∧ ∃ n, tbl.getNodeInfo n = some node := by
    intro node hnode
    obtain ⟨k', hk', hid, hinfo⟩ := chosen_eq_some_iff.mp hnode
    have heq : k = k' := by
      rw [hkey, Option.some.injEq] at hk'
      exact hk'
    rw [← hexact, heq]
    exact ⟨getNodeId_covers hid hinfo, _, hinfo⟩
  constructor
  · rw [hkey]
    exact Option.some_ne_none k
  · intro node hnode
    exact ⟨(hcovers node hnode).1, sendsTo_chosen hnode⟩
  · intro hnone
    apply refuses_of_not_chosen
    · rw [hkey]
      exact Option.some_ne_none k
    · cases hchosen : tbl.chosen routeKey with
      | none => rfl
      | some node =>
          obtain ⟨hcover, n, hn⟩ := hcovers node hchosen
          exact absurd hcover (hnone n node hn)

end RouteTable

/-! ## The operand -/

/-- The conversion of the operand does no harm to the key.  Of a negative operand it does harm
except to a smaller key, which is its own remainder and has the quotient 0, and to a remainder of
a key that is not smaller than the converted operand, where the operand is a power of 2. -/
def Exact (op : RouteOp) (val : ℤ) (routeKey : ℕ) : Prop :=
  op = .other ∨ 0 < val ∨
    val < 0 ∧ (routeKey < -val ∨ op = .mod ∧ val ∣ 2 ^ 32 ∧ 2 ^ 32 ≤ routeKey - val)

theorem exact_neg_iff {op : RouteOp} {m n : ℕ} (hm : 0 < m) : Exact op (-m) n ↔
    op = .other ∨ n < m ∨ op = .mod ∧ m ∣ 2 ^ 32 ∧ 2 ^ 32 ≤ n + m := by
  have hneg : -(m : ℤ) < 0 := by omega
  have hpos : ¬ 0 < -(m : ℤ) := by omega
  have hdvd : -(m : ℤ) ∣ 2 ^ 32 ↔ m ∣ 2 ^ 32 := by
    rw [Int.neg_dvd]
    exact_mod_cast Iff.rfl
  have hlt : (n : ℤ) < - -(m : ℤ) ↔ n < m := by omega
  have hle : (2 : ℤ) ^ 32 ≤ n - -(m : ℤ) ↔ 2 ^ 32 ≤ n + m := by omega
  rw [Exact, hdvd, hlt, hle]
  simp only [hneg, hpos, true_and, false_or]

/-- Remainders by `m` and by what `-m` is converted to. -/
theorem mod_sub_eq_mod_iff {m n : ℕ} (hm : 0 < m) (hm' : m ≤ 2 ^ 31) (hn : n < 2 ^ 32) :
    n % (2 ^ 32 - m) = n % m ↔ n < m ∨ m ∣ 2 ^ 32 ∧ 2 ^ 32 ≤ n + m := by
  have hlt : n % m < m := Nat.mod_lt n hm
  by_cases hsmall : n < 2 ^ 32 - m
  · rw [Nat.mod_eq_of_lt hsmall]
    constructor
    · intro heq
      exact .inl (heq ▸ hlt)
    · intro h
      have hnm : n < m := by omega
      exact (Nat.mod_eq_of_lt hnm).symm
  · -- the converted operand fits once
    have hle : 2 ^ 32 - m ≤ n := by omega
    have hrest : n % (2 ^ 32 - m) = n - (2 ^ 32 - m) := by
      rw [Nat.mod_eq_sub_mod hle, Nat.mod_eq_of_lt (by omega)]
    have hdvd : m ∣ 2 ^ 32 - m ↔ m ∣ 2 ^ 32 := Nat.dvd_sub_iff_left (by omega) dvd_rfl
    have hmod : n - (2 ^ 32 - m) ≡ n [MOD m] ↔ m ∣ 2 ^ 32 - m := by
      rw [Nat.modEq_iff_dvd' (Nat.sub_le _ _)]
      rw [Nat.sub_sub_self hle]
    rw [hrest]
    have hself : (n - (2 ^ 32 - m)) % m = n - (2 ^ 32 - m) := Nat.mod_eq_of_lt (by omega)
    rw [Nat.ModEq, hself, hdvd] at hmod
    rw [hmod]
    constructor
    · intro h
      exact .inr ⟨h, by omega⟩
    · intro h
      rcases h with h | h
      · have hhalf : m = 2 ^ 31 := by omega
        rw [hhalf]
        exact ⟨2, by norm_num⟩
      · exact h.1

/-- Quotients by `-m` and by what it is converted to. -/
theorem div_sub_eq_neg_div_iff {m n : ℕ} (hm : 0 < m) (hm' : m ≤ 2 ^ 31) :
    ((n / (2 ^ 32 - m) : ℕ) : ℤ) = -((n / m : ℕ) : ℤ) ↔ n < m := by
  constructor
  · intro heq
    rw [← Nat.div_eq_zero_iff_lt hm]
    generalize n / (2 ^ 32 - m) = q at heq
    generalize n / m = q' at heq ⊢
    omega
  · intro hlt
    rw [Nat.div_eq_of_lt hlt, Nat.div_eq_of_lt (by omega)]
    rfl

namespace RouteTable

variable {tbl : RouteTable α} {routeKey : ℕ}

/-- An operand that is not 0 comes out of the conversion as `m` or as 2^32 - `m`. -/
theorem operand_cases (hlo : -2 ^ 31 ≤ tbl.routeVal) (hhi : tbl.routeVal < 2 ^ 31)
    (hne : tbl.routeVal ≠ 0) : ∃ m : ℕ, 0 < m ∧ m ≤ 2 ^ 31 ∧
      (tbl.routeVal = m ∧ (tbl.routeVal % 2 ^ 32).toNat = m ∨
        tbl.routeVal = -m ∧ (tbl.routeVal % 2 ^ 32).toNat = 2 ^ 32 - m) := by
  refine ⟨tbl.routeVal.natAbs, by omega, by omega, ?_⟩
  omega

/-- What `spp_sendto` computes is right if the conversion does no harm. -/
theorem nodeKey_exact_iff (hlo : -2 ^ 31 ≤ tbl.routeVal) (hhi : tbl.routeVal < 2 ^ 31)
    (hkey : routeKey < 2 ^ 32) :
    (∃ k, tbl.nodeKey routeKey = some k ∧ (k : ℤ) = tbl.exactKey routeKey) ↔
      Exact tbl.route tbl.routeVal routeKey := by
  by_cases hzero : tbl.routeVal = 0
  · cases hroute : tbl.route <;> simp [nodeKey, exactKey, Exact, hroute, hzero]
  obtain ⟨m, hm, hm', hval⟩ := operand_cases hlo hhi hzero
  have hne : 2 ^ 32 - m ≠ 0 := by omega
  rcases hval with ⟨hval, hunsigned⟩ | ⟨hval, hunsigned⟩
  · -- a positive operand is converted to itself
    have hexact : Exact tbl.route tbl.routeVal routeKey := by
      rw [hval]
      exact .inr (.inl (by omega))
    apply iff_of_true _ hexact
    cases hroute : tbl.route <;>
      simp only [nodeKey, exactKey, hroute, hunsigned, if_neg hm.ne'] <;> simp [hval]
  · rw [hval, exact_neg_iff hm]
    cases hroute : tbl.route with
    | mod =>
        have hnode : tbl.nodeKey routeKey = some (routeKey % (2 ^ 32 - m)) := by
          simp only [nodeKey, hroute, hunsigned, if_neg hne]
        have hexact : tbl.exactKey routeKey = (routeKey % m : ℕ) := by
          simp [exactKey, hroute, hval]
        simp only [hnode, hexact, Option.some.injEq, exists_eq_left', Int.natCast_inj,
          mod_sub_eq_mod_iff hm hm' hkey]
        simp
    | div =>
        have hnode : tbl.nodeKey routeKey = some (routeKey / (2 ^ 32 - m)) := by
          simp only [nodeKey, hroute, hunsigned, if_neg hne]
        have hexact : tbl.exactKey routeKey = -((routeKey / m : ℕ) : ℤ) := by
          simp [exactKey, hroute, hval]
        simp only [hnode, hexact, Option.some.injEq, exists_eq_left', div_sub_eq_neg_div_iff hm hm']
        simp
    | other => simp [nodeKey, exactKey, hroute]

end RouteTable

/-! ## All keys and tables -/

theorem initRoute_bounds {route : List Char} {op : RouteOp} {val : ℤ}
    (h : initRoute route = some (op, val)) : -2 ^ 31 ≤ val ∧ val < 2 ^ 31 := by
  unfold initRoute at h
  split at h
  · cases h
    decide
  · cases h
    exact ⟨le_atoi _, atoi_lt _⟩
  · cases h

/-- A node leaves the route as it is. -/
theorem RouteTable.addNode_route {tbl tbl' : RouteTable SockBind} {elem : NodeElem}
    (h : tbl.addNode elem = some tbl') :
    tbl'.route = tbl.route ∧ tbl'.routeVal = tbl.routeVal := by
  obtain ⟨b, -, rfl⟩ := Option.map_eq_some_iff.mp h
  exact ⟨rfl, rfl⟩

theorem addNodes_route {tbl tbl' : RouteTable SockBind} {nodes : List NodeElem}
    (h : nodes.foldlM RouteTable.addNode tbl = some tbl') :
    tbl'.route = tbl.route ∧ tbl'.routeVal = tbl.routeVal := by
  induction nodes generalizing tbl with
  | nil =>
      cases h
      exact ⟨rfl, rfl⟩
  | cons elem nodes ih =>
      rw [List.foldlM_cons] at h
      obtain ⟨mid, hmid, hrest⟩ := Option.bind_eq_some_iff.mp h
      have hstep := RouteTable.addNode_route hmid
      have hrun := ih hrest
      exact ⟨hrun.1.trans hstep.1, hrun.2.trans hstep.2⟩

theorem initRouteTable_route {servType : ℕ} {conf : GroupElem} {tbl : RouteTable SockBind}
    (h : initRouteTable servType conf = some tbl) :
    initRoute conf.route = some (tbl.route, tbl.routeVal) := by
  unfold initRouteTable at h
  split at h
  · obtain ⟨⟨op, val⟩, hroute, hnodes⟩ := Option.bind_eq_some_iff.mp h
    have hkept := addNodes_route hnodes
    rw [hroute, hkept.1, hkept.2]
    rfl
  · cases h

/-- A file with one node, for the keys from `k` to `k`. -/
def oneNode (route : List Char) (k : ℕ) : GroupElem where
  servType := ['0']
  route := route
  nodes := [⟨['u', 'n', 'i', 'x'], ['1'], [], [], [], Nat.toDigits 10 k, Nat.toDigits 10 k⟩]

theorem initRouteTable_oneNode {route : List Char} {op : RouteOp} {val : ℤ} {k : ℕ}
    (hroute : initRoute route = some (op, val)) (hk : k < 2 ^ 32) :
    initRouteTable 0 (oneNode route k) =
      some ((RouteTable.bare 0 op val).put ⟨0, 1, k, k, .unix, .path []⟩ rfl) := by
  have hid : toUnsigned (atoi ['1']) = 1 := by decide
  have hserv : toUnsigned (strtol0 ['0']) = 0 := by decide
  simp [initRouteTable, oneNode, hserv, hroute, RouteTable.addNode, initBind, hid,
    toUnsigned_atoi_toDigits hk, RouteTable.bare]

theorem RouteTable.nodeKey_le {tbl : RouteTable α} {routeKey k : ℕ}
    (h : tbl.nodeKey routeKey = some k) : k ≤ routeKey := by
  rw [nodeKey] at h
  split at h
  · split at h
    · cases h
    · cases h
      exact Nat.mod_le _ _
  · split at h
    · cases h
    · cases h
      exact Nat.div_le_self _ _
  · cases h
    exact Nat.zero_le _

/-- A node that is alone is chosen for the keys in its range. -/
theorem RouteTable.chosen_put_bare {op : RouteOp} {val : ℤ} {routeKey k : ℕ} {node : NodeInfo α}
    (hserv : node.servType = 0) (hkey : (bare (α := α) 0 op val).nodeKey routeKey = some k)
    (hid : node.nodeId ≠ 0) (hcovers : node.begin_ ≤ k ∧ k ≤ node.end_) :
    ((bare 0 op val).put node hserv).chosen routeKey = some node := by
  have hget : ((bare 0 op val).put node hserv).getNodeId k = node.nodeId := by
    simp [getNodeId, put, bare, StdMap.put, StdMap.empty, hcovers]
  rw [chosen_eq_some_iff]
  refine ⟨k, hkey, ?_, ?_⟩
  · rw [hget]
    exact hid
  · rw [hget]
    simp [getNodeInfo, put, StdMap.find?_put]

/-- For every route that a file can have and every key: in all tables of such files the key comes
to a node for the exact result or to none if and only if the conversion does it no harm. -/
theorem routed_iff {route : List Char} {op : RouteOp} {val : ℤ}
    (hroute : initRoute route = some (op, val)) {routeKey : ℕ} (hkey : routeKey < 2 ^ 32) :
    (∀ servType conf tbl, conf.route = route → initRouteTable servType conf = some tbl →
      tbl.Routed routeKey) ↔ Exact op val routeKey := by
  have hbounds := initRoute_bounds hroute
  constructor
  · intro hall
    have hiff := @RouteTable.nodeKey_exact_iff SockBind (.bare 0 op val) routeKey hbounds.1
      hbounds.2 hkey
    apply hiff.mp
    cases hnode : (RouteTable.bare (α := SockBind) 0 op val).nodeKey routeKey with
    | none =>
        -- any file will do
        have hrouted := hall 0 _ _ rfl (initRouteTable_oneNode hroute (k := 0) (by decide))
        exact absurd hnode hrouted.divides
    | some k =>
        -- the only node is for the computed key, so the exact one must be the same
        have hk : k < 2 ^ 32 := Nat.lt_of_le_of_lt (RouteTable.nodeKey_le hnode) hkey
        have hrouted := hall 0 _ _ rfl (initRouteTable_oneNode hroute hk)
        have hchosen : ((RouteTable.bare 0 op val).put ⟨0, 1, k, k, .unix, SockBind.path []⟩
            rfl).chosen routeKey = some ⟨0, 1, k, k, .unix, .path []⟩ :=
          RouteTable.chosen_put_bare rfl hnode one_ne_zero ⟨le_rfl, le_rfl⟩
        obtain ⟨hlow, hhigh⟩ := (hrouted.covers _ hchosen).1
        exact ⟨k, rfl, le_antisymm hlow hhigh⟩
  · intro hexact servType conf tbl hconf htbl
    have hread := initRouteTable_route htbl
    rw [hconf, hroute, Option.some.injEq, Prod.mk.injEq] at hread
    rw [hread.1, hread.2] at hexact
    rw [hread.2] at hbounds
    obtain ⟨k, hk, heq⟩ := (RouteTable.nodeKey_exact_iff hbounds.1 hbounds.2 hkey).mpr hexact
    exact RouteTable.routed_of_exact hk heq

/-- Remainders by 10, with a node for the keys that end in 3. -/
theorem routed_iff_ten : ∃ tbl,
    initRouteTable 0 (oneNode ['k', 'e', 'y', '%', '1', '0'] 3) = some tbl ∧
      tbl.Routed 123 ∧ (tbl.chosen 123).isSome := by
  have hval : atoi ['1', '0'] = 10 := by decide
  have hroute : initRoute ['k', 'e', 'y', '%', '1', '0'] = some (.mod, 10) := by
    simp [initRoute, allTrim, hval]
  have hread := initRouteTable_oneNode hroute (k := 3) (by decide)
  refine ⟨_, hread, (routed_iff hroute (by decide)).mpr (.inr (.inl (by decide))) _ _ _ rfl hread,
    ?_⟩
  rw [RouteTable.chosen_put_bare rfl (k := 3) rfl (by decide) ⟨by decide, by decide⟩]
  rfl

/-- The operand 0 is accepted. -/
theorem not_routed : ¬ ∀ servType conf tbl routeKey, routeKey < 2 ^ 32 →
    initRouteTable servType conf = some tbl → tbl.Routed routeKey := by
  intro hall
  have hval : atoi ['0'] = 0 := by decide
  have hserv : toUnsigned (strtol0 ['0']) = 0 := by decide
  have hread : initRouteTable 0 ⟨['0'], ['k', 'e', 'y', ' ', '%', ' ', '0'], []⟩ =
      some (.bare 0 .mod 0) := by
    simp [initRouteTable, initRoute, allTrim, hval, hserv]
  exact (hall 0 _ _ 7 (by decide) hread).divides rfl

end Spp
