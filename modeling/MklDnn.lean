import MklDnn.Lib.Offsets
import MklDnn.Lib.Box
import MklDnn.Memory.Desc
import MklDnn.Memory.Offset
import MklDnn.Memory.Proofs.OffsetProofs
import MklDnn.Memory.Proofs.DenseProofs
import MklDnn.Memory.Proofs.FillBlockedProofs
import MklDnn.Common.Proofs.ThreadingProofs
import MklDnn.Common.Proofs.NdIteratorProofs
import MklDnn.Common.MemoryTracking
import MklDnn.Common.Proofs.MemoryTrackingProofs
import MklDnn.Lib.Recency
import MklDnn.Common.PrimitiveCache
import MklDnn.Common.Proofs.PrimitiveCacheProofs
import MklDnn.Lib.Writes
import MklDnn.Memory.Proofs.ZeroPadProofs
import MklDnn.Memory.Submemory
import MklDnn.Memory.Proofs.BorrowProofs
import MklDnn.Memory.Proofs.SubmemoryProofs
import MklDnn.Reorder.Prb
import MklDnn.Reorder.Proofs.MergeProofs
import MklDnn.Reorder.Proofs.PassesProofs
import MklDnn.Reorder.Proofs.BalanceProofs
import MklDnn.Reorder.Proofs.InitProofs
import MklDnn.Reorder.Proofs.ReorderProofs
import MklDnn.Gemm.PackStorage
import MklDnn.Gemm.ThreadOpts
import MklDnn.Gemm.Proofs.PartitionProofs
import MklDnn.Gemm.Proofs.ThreadOptsProofs
import MklDnn.Gemm.Proofs.PackStorageProofs
import MklDnn.Gemm.KSum
import MklDnn.Gemm.Proofs.KSumValueProofs
import MklDnn.Gemm.Proofs.KSumEventsProofs
import MklDnn.Gemm.Proofs.KSumProofs
import MklDnn.Lib.Tilings
import MklDnn.Reorder.Simple
import MklDnn.Reorder.Proofs.SimpleProofs
import MklDnn.Reorder.Proofs.DirectCopyProofs
import MklDnn.Reorder.Proofs.ScaleProofs
import MklDnn.Common.PrimitiveHashing
import MklDnn.Common.Proofs.PrimitiveHashingProofs
import MklDnn.Reorder.ConvS8s8
import MklDnn.Reorder.Proofs.ConvS8s8Proofs
import MklDnn.Reorder.Proofs.CompensationProofs
import MklDnn.Reorder.Proofs.QuantizedWeightsProofs
import MklDnn.Reorder.Proofs.SoundShapesProofs
import MklDnn.Conv.Im2col
import MklDnn.Conv.Proofs.Im2colU8Proofs
import MklDnn.Conv.Proofs.Col2imProofs
import MklDnn.Conv.BwdWeights
import MklDnn.Conv.Proofs.BwdWeightsProofs
import MklDnn.Reducer.CpuReducer
import MklDnn.Reducer.Proofs.BalancerProofs
import MklDnn.Reducer.Proofs.DriverProofs
import MklDnn.Reducer.Proofs.CpuReducerProofs
import MklDnn.Conv.Forward
import MklDnn.Conv.RefConvolution
import MklDnn.Conv.Proofs.ForwardLoopsProofs
import MklDnn.Conv.Proofs.ForwardColumnsProofs
import MklDnn.Conv.Proofs.ForwardValuesProofs
import MklDnn.Conv.ConvolutionPd
import MklDnn.Conv.Proofs.ForwardProofs
import MklDnn.Conv.Proofs.PlanarProofs
import MklDnn.Conv.Proofs.Im2col3dProofs
import MklDnn.Conv.Proofs.VolumeProofs
import MklDnn.Conv.Proofs.ForwardDepthProofs
import MklDnn.Conv.Proofs.Col2im3dProofs
import MklDnn.Conv.Proofs.SgemmProofs
import MklDnn.Conv.Proofs.BwdDataProofs
import MklDnn.Conv.Proofs.BwdDataColumnsProofs
import MklDnn.Conv.Proofs.BwdWeightsColumnsProofs
import MklDnn.Conv.Proofs.GemmConvolutionProofs
import MklDnn.Conv.Proofs.ConvolutionPdProofs
import MklDnn.Common.Convolution
import MklDnn.Common.DescInits
import MklDnn.Common.Proofs.DescInitsProofs
import MklDnn.Common.Proofs.ConvolutionProofs
import MklDnn.Common.Proofs.SimpleBarrierProofs
import MklDnn.Pooling.RefPooling
import MklDnn.Pooling.Proofs.WindowProofs
import MklDnn.Pooling.Proofs.ScatterProofs
import MklDnn.Pooling.PlainPooling
import MklDnn.Pooling.Proofs.RefPoolingProofs
import MklDnn.Pooling.Proofs.AdjointProofs
import MklDnn.Pooling.Proofs.PlainPoolingProofs
import MklDnn.Pooling.Proofs.GatherProofs
import MklDnn.Pooling.Proofs.AgreementProofs
import MklDnn.Lrn.RefLrn
import MklDnn.Lrn.Proofs.RefLrnProofs
import MklDnn.Shuffle.RefShuffle
import MklDnn.Memory.Proofs.TagsProofs
import MklDnn.Shuffle.Proofs.LayoutProofs
import MklDnn.Shuffle.Proofs.ShuffleProofs
import MklDnn.Shuffle.Proofs.LawProofs
import MklDnn.Bnorm.JitDriver
import MklDnn.Bnorm.Proofs.JitDriverProofs
import MklDnn.Bnorm.Proofs.JitCoverageProofs
import MklDnn.Bnorm.Proofs.JitSyncProofs
import MklDnn.Common.Proofs.ScratchpadProofs
import MklDnn.Common.Proofs.UtilsProofs
import MklDnn.Memory.Proofs.BufferSizeProofs
import MklDnn.Conv.Proofs.RtusProofs
import MklDnn.Conv.Proofs.RtusDriverProofs
import MklDnn.Conv.Proofs.RtusCopyProofs
import MklDnn.Common.Threading
import MklDnn.Conv.Avx512
import MklDnn.Conv.Proofs.Avx512LayoutProofs
import MklDnn.Conv.Proofs.Avx512BwdDataProofs
import MklDnn.Conv.Proofs.Avx512WindowProofs
import MklDnn.Conv.Proofs.Avx512BwdDataRowsProofs
import MklDnn.InnerProduct.InnerProductPd
import MklDnn.InnerProduct.GemmInnerProduct
import MklDnn.InnerProduct.Proofs.ConsistencyCheckProofs
import MklDnn.InnerProduct.Proofs.LayoutProofs
import MklDnn.InnerProduct.Proofs.AddressesProofs
import MklDnn.InnerProduct.Proofs.GemmInnerProductProofs
import MklDnn.Reorder.NodeArray
import MklDnn.Reorder.Proofs.NodeArrayProofs
import MklDnn.Reorder.Proofs.ThreadKernelBalanceProofs
import MklDnn.Memory.Proofs.TagPartsProofs
import MklDnn.Reorder.PlainToBlocked
import MklDnn.Reorder.Proofs.BlockStoresProofs
import MklDnn.Reorder.Proofs.OneDimProofs
import MklDnn.Reorder.Proofs.TwoDimProofs
import MklDnn.Reorder.Proofs.RoundTripProofs
import MklDnn.Concat.ConcatPd
import MklDnn.Concat.Proofs.ConcatPdProofs
import MklDnn.Lib.RegisterLoops
import MklDnn.Reorder.JitUniReorder
import MklDnn.Reorder.Proofs.JitUniReorderProofs
import MklDnn.Reorder.Proofs.JitLoopsProofs
import MklDnn.Reducer.Proofs.BalanceSearchProofs
import MklDnn.Common.PrimitiveAttr
import MklDnn.Common.Proofs.PrimitiveAttrProofs
import MklDnn.Common.Proofs.AttrEqualityProofs
import MklDnn.Gemm.EntryPoints
import MklDnn.Gemm.Proofs.EntryPointsProofs
import MklDnn.Gemm.Proofs.NocopyThreadsProofs
import MklDnn.Lib.Fills
import MklDnn.Reducer.CpuReducer2d
import MklDnn.Reducer.Proofs.BlocksProofs
import MklDnn.Reducer.Proofs.CpuReducer2dProofs
import MklDnn.Reducer.Proofs.Reducer2dValuesProofs
import MklDnn.Gemm.SimpleS8s8
import MklDnn.Gemm.Proofs.SimpleS8s8Proofs
import MklDnn.Gemm.GemvS8u8s32
import MklDnn.Gemm.Proofs.GemvGridProofs
import MklDnn.Gemm.Proofs.GemvS8u8s32Proofs
import MklDnn.Gemm.GemvDriver
import MklDnn.Gemm.Proofs.GemvDriverProofs
import MklDnn.Gemm.RefGemm
import MklDnn.Gemm.Proofs.RefGemmProofs
import MklDnn.Rnn.Proofs.RnnDescProofs
import MklDnn.Pooling.PoolingDesc
import MklDnn.Pooling.Proofs.PoolingDescProofs
import MklDnn.Common.Proofs.ParallelLoopsProofs
import MklDnn.Reorder.Proofs.WinoReorderProofs
import MklDnn.Softmax.RefSoftmax
import MklDnn.Softmax.Proofs.RowsProofs
import MklDnn.Softmax.Proofs.RefSoftmaxProofs
import MklDnn.Eltwise.RefEltwise
import MklDnn.Eltwise.Proofs.RefEltwiseProofs
import MklDnn.Conv.Deconvolution
import MklDnn.Conv.Proofs.DeconvolutionProofs
import MklDnn.Rnn.StateCopies
import MklDnn.Rnn.Proofs.StateCopiesProofs
import MklDnn.Rnn.RefRnn
import MklDnn.Rnn.Proofs.RefRnnProofs
import MklDnn.Rnn.Proofs.RnnGridProofs
import MklDnn.Rnn.Proofs.RnnWorkspaceProofs
import MklDnn.Softmax.Proofs.GenericPathProofs
