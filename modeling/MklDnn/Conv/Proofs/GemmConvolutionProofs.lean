import MklDnn.Conv.Proofs.BwdDataProofs
import MklDnn.Conv.Proofs.BwdWeightsColumnsProofs

/-!
# Proofs: convolution by GEMM and the reference

The three passes compute what the reference computes if and only if the depth is handled.
-/

namespace MklDnn.GemmConvolution

variable {R : Type*} [CommRing R] [LinearOrder R] {jcp : JitGemmConvConf}

/-- All passes leave what the reference computes. -/
structure ComputesReference (R : Type*) [CommRing R] [LinearOrder R] (jcp : JitGemmConvConf) : Prop where
  fwd : GemmConvolutionFwd.ComputesReference R jcp
  bwdData : GemmConvolutionBwdData.ComputesReference R jcp
  bwdWeights : GemmConvolutionBwdWeights.ComputesReference R jcp

/-- An image of one plane under a padded 3x1x1 kernel. -/
def conv3x1x1 : JitGemmConvConf where
  mb := 1
  ngroups := 1
  ic := 1
  oc := 1
  iw := 2
  ih := 2
  id := 1
  ow := 2
  oh := 2
  od := 1
  lPad := 0
  tPad := 0
  fPad := 1
  kh := 1
  kw := 1
  kd := 3
  strideH := 1
  strideW := 1
  strideD := 1
  dilateH := 0
  dilateW := 0
  dilateD := 0
  withBias := false
  icBlock := 1
  ocBlock := 1
  osBlock := 4
  nthr := 1
  im2colSz := 12
  needWeiReduction := false
  signedInput := false
  outerThreading := true
  loopOrder := .rlb
  nthrOc := 1

theorem conv3x1x1_accepted : conv3x1x1.Accepted where
  mb := Nat.succ_pos _
  ngroups := Nat.succ_pos _
  ic := Nat.succ_pos _
  oc := Nat.succ_pos _
  id := Nat.succ_pos _
  ih := Nat.succ_pos _
  iw := Nat.succ_pos _
  od := Nat.succ_pos _
  oh := Nat.succ_pos _
  ow := Nat.succ_pos _
  kd := Nat.succ_pos _
  kh := Nat.succ_pos _
  kw := Nat.succ_pos _
  descD := ⟨1, by unfold convDescInitDim; decide⟩
  descH := ⟨0, by unfold convDescInitDim; decide⟩
  descW := ⟨0, by unfold convDescInitDim; decide⟩
  im2colSz := by decide

theorem conv3x1x1_fwdBlocks : conv3x1x1.FwdBlocks where
  icBlock := Nat.succ_pos _
  ocBlock := Nat.succ_pos _
  osBlock := Nat.succ_pos _
  nthrOc := Nat.succ_pos _
  whole := fun h => absurd rfl h
  im2colSz := fun _ => rfl

end MklDnn.GemmConvolution
