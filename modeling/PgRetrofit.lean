import PgRetrofit.Proofs.IntsetIn
import PgRetrofit.Proofs.PnameOrder
import PgRetrofit.Proofs.HashJoin
import PgRetrofit.Proofs.PrivateHash
import PgRetrofit.Proofs.IntegerSetIterate
import PgRetrofit.Proofs.FsmPage
import PgRetrofit.Proofs.KnownAssigned
import PgRetrofit.Proofs.GinPostingList
import PgRetrofit.Proofs.HeapVacuum
import PgRetrofit.Proofs.ProcArray
import PgRetrofit.Proofs.RbTree
import PgRetrofit.Proofs.PgLzCompress
import PgRetrofit.Proofs.TidBitmap
import PgRetrofit.Proofs.LockManager
import PgRetrofit.Proofs.BtSplitLoc
import PgRetrofit.Proofs.MultiXact
import PgRetrofit.Proofs.Acl
import PgRetrofit.Proofs.NumericInt
import PgRetrofit.Proofs.NumericMod
import PgRetrofit.Proofs.SyncRep
import PgRetrofit.Proofs.TimestampInterval
import PgRetrofit.Proofs.IntsetSearch
import PgRetrofit.Proofs.IntsetBinary
import PgRetrofit.Proofs.IntsetGrammar
import PgRetrofit.Proofs.NumericTypmod
import PgRetrofit.Proofs.Int128
