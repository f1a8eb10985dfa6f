import Mathlib.Data.Nat.Bitwise
import Mathlib.Tactic.Linarith

/-! Internet addresses: their classes as a standard library tests them, octet by octet and segment by segment, and as
the networks that the classes are. Some addresses of the sixth version hold one of the fourth. -/
namespace Ecphoria.Library

structure Ipv4Addr where
  bits : BitVec 32
deriving DecidableEq,Repr

structure Ipv6Addr where
  bits : BitVec 128
deriving DecidableEq,Repr

inductive IpAddr where
  | v4 (a : Ipv4Addr)
  | v6 (a : Ipv6Addr)
deriving DecidableEq,Repr

def sharesLead (width length bits network : Nat) : Prop := bits / 2 ^ (width - length) = network / 2 ^ (width - length)

instance (width length bits network : Nat) : Decidable (sharesLead width length bits network) := Nat.decEq _ _

namespace Ipv4Addr
variable (a : Ipv4Addr)

def ofOctets (o p q r : Nat) : Ipv4Addr := ⟨BitVec.ofNat 32 (((o * 256 + p) * 256 + q) * 256 + r)⟩

def octet (i : Nat) : Nat := a.bits.toNat / 256 ^ (3 - i) % 256

def isLinkLocal : Bool := a.octet 0 = 169 && a.octet 1 = 254

def isUnspecified : Bool := a.octet 0 = 0 && a.octet 1 = 0 && a.octet 2 = 0 && a.octet 3 = 0

def isMulticast : Bool := 224 ≤ a.octet 0 && a.octet 0 ≤ 239

def isBroadcast : Bool := a.octet 0 = 255 && a.octet 1 = 255 && a.octet 2 = 255 && a.octet 3 = 255

def isLoopback : Bool := a.octet 0 = 127

def isPrivate : Bool :=
  a.octet 0 = 10 || (a.octet 0 = 172 && 16 ≤ a.octet 1 && a.octet 1 ≤ 31) || (a.octet 0 = 192 && a.octet 1 = 168)

def InNetwork (network : Ipv4Addr) (length : Nat) : Prop := sharesLead 32 length a.bits.toNat network.bits.toNat

instance (network : Ipv4Addr) (length : Nat) : Decidable (a.InNetwork network length) :=
  inferInstanceAs (Decidable (sharesLead _ _ _ _))

theorem isLinkLocal_iff : a.isLinkLocal = true ↔ a.InNetwork (ofOctets 169 254 0 0) 16 := by
  have bound := a.bits.isLt
  have network : (ofOctets 169 254 0 0).bits.toNat = 0xa9fe0000 := by decide
  simp only [isLinkLocal,InNetwork,sharesLead,network,Bool.and_eq_true,decide_eq_true_eq]
  unfold octet
  omega

theorem isUnspecified_iff : a.isUnspecified = true ↔ a.InNetwork (ofOctets 0 0 0 0) 32 := by
  have bound := a.bits.isLt
  have network : (ofOctets 0 0 0 0).bits.toNat = 0 := by decide
  simp only [isUnspecified,InNetwork,sharesLead,network,Bool.and_eq_true,decide_eq_true_eq,Nat.sub_self,Nat.pow_zero,
    Nat.div_one]
  unfold octet
  omega

theorem isMulticast_iff : a.isMulticast = true ↔ a.InNetwork (ofOctets 224 0 0 0) 4 := by
  have bound := a.bits.isLt
  have network : (ofOctets 224 0 0 0).bits.toNat = 0xe0000000 := by decide
  simp only [isMulticast,InNetwork,sharesLead,network,Bool.and_eq_true,decide_eq_true_eq]
  unfold octet
  omega

theorem isBroadcast_iff : a.isBroadcast = true ↔ a.InNetwork (ofOctets 255 255 255 255) 32 := by
  have bound := a.bits.isLt
  have network : (ofOctets 255 255 255 255).bits.toNat = 0xffffffff := by decide
  simp only [isBroadcast,InNetwork,sharesLead,network,Bool.and_eq_true,decide_eq_true_eq,Nat.sub_self,Nat.pow_zero,
    Nat.div_one]
  unfold octet
  omega

theorem isLoopback_iff : a.isLoopback = true ↔ a.InNetwork (ofOctets 127 0 0 0) 8 := by
  have bound := a.bits.isLt
  have network : (ofOctets 127 0 0 0).bits.toNat = 0x7f000000 := by decide
  simp only [isLoopback,InNetwork,sharesLead,network,decide_eq_true_eq]
  unfold octet
  omega

theorem isPrivate_iff : a.isPrivate = true ↔ a.InNetwork (ofOctets 10 0 0 0) 8 ∨ a.InNetwork (ofOctets 172 16 0 0) 12 ∨
    a.InNetwork (ofOctets 192 168 0 0) 16 := by
  have bound := a.bits.isLt
  have ten : (ofOctets 10 0 0 0).bits.toNat = 0x0a000000 := by decide
  have middle : (ofOctets 172 16 0 0).bits.toNat = 0xac100000 := by decide
  have last : (ofOctets 192 168 0 0).bits.toNat = 0xc0a80000 := by decide
  simp only [isPrivate,InNetwork,sharesLead,ten,middle,last,Bool.and_eq_true,Bool.or_eq_true,decide_eq_true_eq]
  unfold octet
  omega

end Ipv4Addr

theorem and_high_bits (x width low : Nat) (bound : x < 2 ^ (width + low)) :
    x &&& ((2 ^ width - 1) * 2 ^ low) = x / 2 ^ low * 2 ^ low := by
  refine Nat.eq_of_testBit_eq ?_
  intro i
  rw [Nat.testBit_and,Nat.testBit_mul_two_pow,Nat.testBit_mul_two_pow,Nat.testBit_two_pow_sub_one,Nat.testBit_div_two_pow]
  by_cases high : low ≤ i
  · by_cases short : i - low < width
    · simp [high,short]
    · have above : x.testBit i = false := by
        refine Nat.testBit_lt_two_pow (Nat.lt_of_lt_of_le bound (Nat.pow_le_pow_right (by decide) (by omega)))
      simp [high,short,above]
  · simp [high]

namespace Ipv6Addr
variable (a : Ipv6Addr)

def segment (i : Nat) : Nat := a.bits.toNat / 65536 ^ (7 - i) % 65536

def isUnspecified : Bool := a.bits = 0

def isLoopback : Bool := a.bits = 1

def isMulticast : Bool := (a.segment 0 &&& 0xff00) = 0xff00

def low : Ipv4Addr := ⟨BitVec.ofNat 32 a.bits.toNat⟩

/-- `::ffff:a.b.c.d` -/
def toIpv4Mapped : Option Ipv4Addr :=
  if (List.range 5).all (fun i => a.segment i = 0) && a.segment 5 = 0xffff then some a.low else none

def InNetwork (network length : Nat) : Prop := sharesLead 128 length a.bits.toNat network

instance (network length : Nat) : Decidable (a.InNetwork network length) := inferInstanceAs (Decidable (sharesLead _ _ _ _))

def mappedNetwork : Nat := 0xffff * 2 ^ 32

def nat64Network : Nat := 0x64 * 2 ^ 112 + 0xff9b * 2 ^ 96

def sixToFourNetwork : Nat := 0x2002 * 2 ^ 112

/-- The address of the fourth version that an address holds in compatible, translated or tunnelled form. -/
def disguised : Option Ipv4Addr :=
  if a.InNetwork 0 96 || a.InNetwork nat64Network 96 then some a.low
  else if a.InNetwork sixToFourNetwork 16 then some ⟨BitVec.ofNat 32 (a.bits.toNat / 2 ^ 80)⟩
  else none

/-- The address of the fourth version that an address holds in any form. -/
def embedded : Option Ipv4Addr := if a.InNetwork mappedNetwork 96 then some a.low else a.disguised

theorem segment_mask (width low : Nat) {mask value : Nat} (whole : width + low = 16) (mask_eq : mask = (2 ^ width - 1) * 2 ^ low)
    (value_eq : value / 2 ^ low * 2 ^ low = value) :
    (a.segment 0 &&& mask) = value ↔ a.segment 0 / 2 ^ low = value / 2 ^ low := by
  have bound : a.segment 0 < 2 ^ (width + low) := by
    rw [whole]
    exact Nat.mod_lt _ (by decide)
  rw [mask_eq,and_high_bits _ width low bound]
  constructor
  · intro same
    rw [← same,Nat.mul_div_cancel _ (Nat.two_pow_pos low)]
  · intro same
    rw [same,value_eq]

theorem isMulticast_iff : a.isMulticast = true ↔ a.InNetwork (0xff00 * 2 ^ 112) 8 := by
  have bound := a.bits.isLt
  have masked : (a.segment 0 &&& 0xff00) = 0xff00 ↔ a.segment 0 / 2 ^ 8 = 0xff00 / 2 ^ 8 := a.segment_mask 8 8 rfl rfl rfl
  rw [isMulticast,decide_eq_true_eq,masked]
  unfold InNetwork sharesLead segment
  omega

theorem linkLocal_iff : (a.segment 0 &&& 0xffc0) = 0xfe80 ↔ a.InNetwork (0xfe80 * 2 ^ 112) 10 := by
  have bound := a.bits.isLt
  have masked : (a.segment 0 &&& 0xffc0) = 0xfe80 ↔ a.segment 0 / 2 ^ 6 = 0xfe80 / 2 ^ 6 := a.segment_mask 10 6 rfl rfl rfl
  rw [masked]
  unfold InNetwork sharesLead segment
  omega

theorem uniqueLocal_iff : (a.segment 0 &&& 0xfe00) = 0xfc00 ↔ a.InNetwork (0xfc00 * 2 ^ 112) 7 := by
  have bound := a.bits.isLt
  have masked : (a.segment 0 &&& 0xfe00) = 0xfc00 ↔ a.segment 0 / 2 ^ 9 = 0xfc00 / 2 ^ 9 := a.segment_mask 7 9 rfl rfl rfl
  rw [masked]
  unfold InNetwork sharesLead segment
  omega

theorem isUnspecified_iff : a.isUnspecified = true ↔ a.InNetwork 0 128 := by
  rw [isUnspecified,decide_eq_true_eq,InNetwork,sharesLead,Nat.sub_self,Nat.pow_zero,Nat.div_one,Nat.div_one]
  exact BitVec.toNat_inj.symm

theorem isLoopback_iff : a.isLoopback = true ↔ a.InNetwork 1 128 := by
  rw [isLoopback,decide_eq_true_eq,InNetwork,sharesLead,Nat.sub_self,Nat.pow_zero,Nat.div_one,Nat.div_one]
  exact BitVec.toNat_inj.symm

theorem toIpv4Mapped_eq : a.toIpv4Mapped = if a.InNetwork mappedNetwork 96 then some a.low else none := by
  have bound := a.bits.isLt
  have mapped : ((List.range 5).all (fun i => a.segment i = 0) && a.segment 5 = 0xffff) = true ↔
      a.InNetwork mappedNetwork 96 := by
    have segments : (List.range 5) = [0,1,2,3,4] := rfl
    simp only [segments,List.all_cons,List.all_nil,Bool.and_true,Bool.and_eq_true,decide_eq_true_eq]
    unfold InNetwork sharesLead segment mappedNetwork
    omega
  rw [toIpv4Mapped]
  exact if_congr mapped rfl rfl

end Ipv6Addr
end Ecphoria.Library
